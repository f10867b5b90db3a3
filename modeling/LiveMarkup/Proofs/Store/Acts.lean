import LiveMarkup.Proofs.Store.Engine

namespace LiveMarkup

open Document

inductive Request where
  | set (name : String) (v : Json)
  | configure (data : Json)
  | extend (view : Blueprint)

namespace Request

/-- What an instance makes of a request, and what it answers. -/
def apply (s : Stage) (i : Instance) : Request → Stage × Instance × Reply
  | .set name v => Session.settled (i.set s name v)
  | .configure data => ((i.configure s data).1, (i.configure s data).2, .done)
  | .extend view =>
    let (o, root) := i.extend s view
    match o.error with
    | none => (o.stage, o.self, .position ((o.stage.document.children o.self.root).idxOf? root))
    | some e => (o.stage, o.self, .failed e)

/-- The request is with a view that a template, or a region of one, compiles to. -/
def Compiled : Request → Prop
  | .extend view => view.IsCompiled
  | _ => True

end Request

inductive Act where
  | place (name : String) (registry : Registry) (view : Blueprint) (className : Option String)
      (data : Option Json)
  | host (name : String) (registry : Registry) (tree : Tree) (className : String)
  | ask (name : String) (way : List (String × Nat)) (request : Request)

namespace Act

def name : Act → String
  | .place name _ _ _ _ => name
  | .host name _ _ _ => name
  | .ask name _ _ => name

def Compiled : Act → Prop
  | .place _ _ view _ _ => view.IsCompiled
  | .host _ _ _ _ => True
  | .ask _ _ request => request.Compiled

end Act

structure Store where
  document : Document
  residents : Table Instance

namespace Store

def empty : Store := ⟨.empty, .empty⟩

/-- What comes of an act. A name is given once only. -/
def perform (c : Store) : Act → Store × Reply
  | .place name registry view className data =>
    match c.residents.get? name with
    | some _ => (c, .noSuchThing)
    | none =>
      match Instance.instantiate registry ⟨c.document, []⟩ view className data with
      | (s, .ok i) => (⟨s.document, c.residents.put name i⟩, .done)
      | (s, .error e) => (⟨s.document, c.residents⟩, .failed e)
  | .host name registry tree className =>
    match c.residents.get? name with
    | some _ => (c, .noSuchThing)
    | none =>
      match registry.create className with
      | .error e => (c, .failed e)
      | .ok component =>
        let (d, root) := c.document.graft tree
        (⟨d, c.residents.put name (.new root className component registry)⟩, .done)
  | .ask name way request =>
    match c.residents.get? name with
    | none => (c, .noSuchThing)
    | some i =>
      match i.descend? way with
      | none => (c, .noSuchThing)
      | some g =>
        let (s, g', reply) := request.apply ⟨c.document, []⟩ g
        (⟨s.document, c.residents.put name (i.replaceAt g' way)⟩, reply)

def run (c : Store) (acts : List Act) : Store := acts.foldl (fun c a => (c.perform a).1) c

/-- What the instance of a name answers in the course of acts. -/
def replies (c : Store) (name : String) : List Act → List Reply
  | [] => []
  | a :: acts =>
    let rest := (c.perform a).1.replies name acts
    if a.name = name then (c.perform a).2 :: rest else rest

end Store

/-! ### Requests in two runs -/

theorem idxOf?_map {f : NodeId → NodeId} {xs : List NodeId} {x : NodeId}
    (h : ∀ y ∈ xs, f y = f x → y = x) : (xs.map f).idxOf? (f x) = xs.idxOf? x := by
  induction xs with
  | nil => rfl
  | cons y xs ih =>
    have hy : (f y == f x) = (y == x) := by
      rw [Bool.eq_iff_iff, beq_iff_eq, beq_iff_eq]
      exact ⟨h y List.mem_cons_self, congrArg f⟩
    rw [List.map_cons, List.idxOf?_cons, List.idxOf?_cons, hy,
      ih fun z hz => h z (List.mem_cons_of_mem _ hz)]

namespace LockstepAt

variable {S : Setting} {watch : NodeId → NodeId → Prop} {d e : Document} {g k : Instance}
  {s t : Stage}

theorem start {d₀ e₀ : Document} {f : NodeId → NodeId} {s : Shape} {i : Instance}
    {way : List (String × Nat)} (t : Renamed d₀ e₀ f [s] d e [i]) (hg : i.descend? way = some g) :
    LockstepAt ⟨⟨d, ↑[i]⟩, d, d₀, e₀, i, i.rename f, way, ⟨g, hg⟩,
      ⟨g.rename f, by rw [Instance.descend?_rename, hg, Option.map_some]⟩, Blueprint.IsCompiled⟩
      (fun _ _ => False) d e g (g.rename f) := by
  have hgs := ((t.left.embedded i List.mem_cons_self).descend? hg).1
  refine ⟨⟨f, s, ?_, ?_, fun _ _ h => h.elim⟩, fun n a view cs hget => ?_, ?_, ?_⟩
  · rw [Instance.replaceAt_self hg]
    exact t
  · dsimp only
    rw [← Instance.replaceAt_rename]
  · exact (hgs.placed_of_get? hget).1
  · rw [Instance.replaceAt_self hg]
    exact .refl
  · rw [Instance.replaceAt_self hg]
    exact .refl

theorem idxOf?_eq {x y : NodeId} (h : LockstepAt S watch d e g k) (hx : watch x y) :
    (e.children k.root).idxOf? y = (d.children g.root).idxOf? x := by
  obtain ⟨f, s, i, hg, t, rfl, hwatch, -⟩ := h.exists_state
  obtain ⟨hown, rfl⟩ := hwatch x y hx
  have hroot : g.root ∈ s.ids := t.left.mem_ids_of_own hg .refl
  have hmirrors := t.mirrors List.mem_cons_self
  rw [Instance.root_rename, hmirrors.children _ hroot]
  refine idxOf?_map fun z hz => t.injOn z ?_ x ?_
  · simpa using hmirrors.closed _ hroot z hz
  · simpa using t.left.mem_ids_of_own hg hown

theorem apply (h : LockstepAt S watch s.document t.document g k) (admits : S.admits = Blueprint.IsCompiled)
    {r : Request} (hr : r.Compiled) :
    (∃ watch', LockstepAt S watch' (r.apply s g).1.document (r.apply t k).1.document
      (r.apply s g).2.1 (r.apply t k).2.1) ∧ (r.apply t k).2.2 = (r.apply s g).2.2 := by
  have halike : ∀ registry view, S.admits view → (Instance.build registry).Alike
      (Instance.build registry) view := fun registry view hview =>
    Instance.build_alike registry (admits ▸ hview)
  have hregistry := h.get?_eq.2.2
  cases r with
  | set name v =>
    have hset := h.set (halike g.registry) name v
    rw [Request.apply, Request.apply, Instance.set, Instance.set, hregistry]
    generalize Instance.setWith (Instance.build g.registry) s g name v = o at hset ⊢
    generalize Instance.setWith (Instance.build g.registry) t k name v = o' at hset ⊢
    obtain ⟨s₁, g₁, error⟩ := o
    obtain ⟨t₁, k₁, error'⟩ := o'
    obtain rfl : error = error' := hset.error
    cases error <;> exact ⟨⟨watch, hset.lockstepAt⟩, rfl⟩
  | configure data =>
    have hconfigure := h.configure (halike g.registry) data
    rw [Request.apply, Request.apply, Instance.configure, Instance.configure, hregistry]
    exact ⟨⟨watch, hconfigure⟩, rfl⟩
  | extend view =>
    obtain ⟨c, f, hid, hid', hinstalled, -⟩ := h.install hr fun name region hregion =>
      admits ▸ hr.region hregion
    have hall := hinstalled.assignAll (halike (g.install s view).2.registry)
      ((g.install s view).2.heldValues view)
    have hheld : (k.install t view).2.heldValues view = (g.install s view).2.heldValues view := by
      rw [Instance.heldValues, Instance.heldValues]
      refine List.filterMap_congr fun e _ => ?_
      cases e <;> simp only [Instance.get?, hinstalled.get?_eq.2.1]
    rw [Request.apply, Request.apply, Instance.extend_eq, Instance.extend_eq, hheld,
      hinstalled.get?_eq.2.2, ← hid, ← hid']
    dsimp only
    generalize Instance.assignAllWith (Instance.build (g.install s view).2.registry)
      (g.install s view).1 (g.install s view).2 _ = o at hall ⊢
    generalize Instance.assignAllWith (Instance.build (g.install s view).2.registry)
      (k.install t view).1 (k.install t view).2 _ = o' at hall ⊢
    obtain ⟨s₁, g₁, error⟩ := o
    obtain ⟨t₁, k₁, error'⟩ := o'
    obtain rfl : error = error' := hall.error
    cases error with
    | some e => exact ⟨⟨_, hall.lockstepAt⟩, rfl⟩
    | none =>
      refine ⟨⟨_, hall.lockstepAt⟩, ?_⟩
      exact congrArg Reply.position (hall.lockstepAt.idxOf?_eq ⟨c.id_mem_ids, rfl⟩)

end LockstepAt

theorem Document.Grown.keeps_apart {d₀ d d' : Document} {ss ss' : List Shape} (h : Grown d₀ d ss)
    (h' : Grown d₀ d' ss') {x : NodeId} {n : Node} (hx : d.node? x = some n)
    (hout : x ∉ ss.flatMap Shape.ids) : d'.node? x = d.node? x := by
  have hbase := h.frame x hout
  rw [hx] at hbase
  rw [h'.keeps hbase.symm, h.frame x hout]

namespace Store

variable {c c' b : Store} {name : String} {a : Act}

/-- The instance of the name is the same in both, up to handles, or there is none in either. -/
inductive Matches (c b : Store) (name : String) : Prop where
  | absent (left : c.residents.get? name = none) (right : b.residents.get? name = none)
      (tidy : b.document.Tidy)
  | present {i : Instance} {base base' : Document} {f : NodeId → NodeId} {s : Shape}
      (left : c.residents.get? name = some i) (right : b.residents.get? name = some (i.rename f))
      (renamed : Renamed base base' f [s] c.document b.document [i])

/-- What becomes of a store when something is done with the instance of a name. -/
structure LocalChange (c c' : Store) (name : String) : Prop where
  residents : c'.residents = c.residents ∨ ∃ i, c'.residents = c.residents.put name i
  reaches : EngineState.Reaches ⟨c.document, ↑(c.residents.get? name).toList⟩
    ⟨c'.document, ↑(c'.residents.get? name).toList⟩
  frame : ∀ x n, c.document.node? x = some n →
    (∀ i, c.residents.get? name = some i → ¬ c.document.Under x i.root) →
    c'.document.node? x = c.document.node? x

theorem LocalChange.refl (c : Store) (name : String) : LocalChange c c name :=
  ⟨.inl rfl, .refl, fun _ _ _ _ => rfl⟩

theorem Matches.of_lockstep {w : EngineState} {base base' : Document} {i j : Instance}
    (left : c.residents.get? name = some i) (right : b.residents.get? name = some j)
    (lockstep : Lockstep w base base' c.document b.document [i] [j]) : Matches c b name := by
  obtain ⟨f, s, t, rfl⟩ := lockstep.exists_renamed
  exact .present left right t

theorem Matches.placed {i j : Instance} {d e : Document} (left : c.residents.get? name = none)
    (lockstep : Lockstep ⟨c.document, 0⟩ c.document b.document d e [i] [j]) :
    Matches ⟨d, c.residents.put name i⟩ ⟨e, b.residents.put name j⟩ name ∧
      LocalChange c ⟨d, c.residents.put name i⟩ name := by
  obtain ⟨f, ss, renamed, -⟩ := lockstep.same
  refine ⟨.of_lockstep (Table.get?_put_self _ _ _) (Table.get?_put_self _ _ _) lockstep, .inr ⟨i, rfl⟩, ?_,
    fun x n hx _ => renamed.left.grown.keeps hx⟩
  dsimp only
  rw [left, Table.get?_put_self]
  exact lockstep.reaches

/-- What comes of an act when it is done with the instance of the name, and when it is done with the
counterpart of that. -/
structure Performed (c : Store) (name : String) (r r' : Store × Reply) : Prop where
  matched : Matches r.1 r'.1 name
  reply : r'.2 = r.2
  localChange : LocalChange c r.1 name

theorem Matches.idle (h : Matches c b name) (reply : Reply) :
    Performed c name (c, reply) (b, reply) :=
  ⟨h, rfl, .refl c name⟩

theorem Matches.place (h : Matches c b name) (hc : c.document.Tidy) (registry : Registry)
    {view : Blueprint} (hview : view.IsCompiled) (className : Option String) (data : Option Json) :
    Performed c name (c.perform (.place name registry view className data))
      (b.perform (.place name registry view className data)) := by
  rw [perform, perform]
  cases h with
  | present left right renamed =>
    rw [left, right]
    exact Matches.idle (.present left right renamed) _
  | absent left right tidy =>
    rw [left, right]
    have hends := Instance.instantiate_alike registry hview className data
      (s := ⟨c.document, []⟩) (t := ⟨b.document, []⟩) hc tidy
    dsimp only
    generalize Instance.instantiate registry ⟨c.document, []⟩ view className data = r at hends ⊢
    generalize Instance.instantiate registry ⟨b.document, []⟩ view className data = r' at hends ⊢
    cases hends with
    | @failed s t e lockstep =>
      -- what was built before the failure is gone again, but other slots may be free now
      obtain ⟨f, ss, renamed, -⟩ := lockstep.same
      refine ⟨.absent left right lockstep.tidy.2, rfl, .inl rfl, ?_, fun x n hx _ => ?_⟩
      · change EngineState.Reaches ⟨_, ↑(c.residents.get? name).toList⟩
          ⟨s.document, ↑(c.residents.get? name).toList⟩
        rw [left]
        exact lockstep.reaches
      · exact renamed.left.grown.keeps hx
    | @built s t i j lockstep =>
      obtain ⟨hmatches, hchange⟩ := Matches.placed left lockstep
      exact ⟨hmatches, rfl, hchange⟩

theorem Matches.host (h : Matches c b name) (hc : c.document.Tidy) (registry : Registry)
    (tree : Tree) (className : String) :
    Performed c name (c.perform (.host name registry tree className))
      (b.perform (.host name registry tree className)) := by
  rw [perform, perform]
  cases h with
  | present left right renamed =>
    rw [left, right]
    exact Matches.idle (.present left right renamed) _
  | absent left right tidy =>
    rw [left, right]
    dsimp only
    rcases registry.create className with e | component
    · exact Matches.idle (.absent left right tidy) _
    · obtain ⟨hmatches, hchange⟩ := Matches.placed left (Lockstep.plant hc tidy tree
        (i := .new (c.document.graft tree).2 className component registry) rfl rfl rfl)
      exact ⟨hmatches, rfl, hchange⟩

theorem Matches.ask (h : Matches c b name) (way : List (String × Nat)) {request : Request}
    (hrequest : request.Compiled) :
    Performed c name (c.perform (.ask name way request)) (b.perform (.ask name way request)) := by
  rw [perform, perform]
  cases h with
  | absent left right tidy =>
    rw [left, right]
    exact Matches.idle (.absent left right tidy) _
  | @present i base base' f s left right renamed =>
    rw [left, right]
    dsimp only
    rw [Instance.descend?_rename]
    rcases hg : i.descend? way with _ | g
    · exact Matches.idle (.present left right renamed) _
    · rw [Option.map_some]
      dsimp only
      have hstart := LockstepAt.start renamed hg
      obtain ⟨⟨watch, hlock⟩, hreply⟩ := LockstepAt.apply (s := ⟨c.document, []⟩)
        (t := ⟨b.document, []⟩) hstart rfl hrequest
      generalize request.apply ⟨c.document, []⟩ g = r at hlock hreply ⊢
      generalize request.apply ⟨b.document, []⟩ (g.rename f) = r' at hlock hreply ⊢
      obtain ⟨s', g', reply⟩ := r
      obtain ⟨t', k', reply'⟩ := r'
      obtain ⟨f', ss, hrenamed, -⟩ := hlock.lockstep.same
      refine ⟨.of_lockstep (Table.get?_put_self _ _ _) (Table.get?_put_self _ _ _) hlock.lockstep,
        hreply, .inr ⟨_, rfl⟩, ?_, fun x n hx hout => ?_⟩
      · change EngineState.Reaches ⟨_, ↑(c.residents.get? name).toList⟩
          ⟨s'.document, ↑((c.residents.put name (i.replaceAt g' way)).get? name).toList⟩
        rw [left, Table.get?_put_self]
        exact hlock.reaches
      · refine renamed.left.grown.keeps_apart hrenamed.left.grown hx fun hmem => hout i left ?_
        rw [← renamed.left.mem_ids_iff]
        simpa using hmem

theorem Matches.perform (h : Matches c b a.name) (ha : a.Compiled) (hc : c.document.Tidy) :
    Performed c a.name (c.perform a) (b.perform a) := by
  cases a with
  | place name registry view className data => exact h.place hc registry ha className data
  | host name registry tree className => exact h.host hc registry tree className
  | ask name way request => exact h.ask way ha

end Store

end LiveMarkup
