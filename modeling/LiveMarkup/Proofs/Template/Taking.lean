import LiveMarkup.Proofs.Instance.Resolvable
import LiveMarkup.Proofs.Template.Marking

namespace LiveMarkup

open CompileContext Document Document.Exhibits Site

namespace CompileContext

theorem markLabel_none (ctx : CompileContext) (m : Mark) :
    ctx.markLabel (fun _ => none) m = m.label := by
  cases m with
  | text name => rfl
  | attributes l =>
    rw [markLabel, Mark.label, shownLabel, Label.blanked]
    congr 2
    refine List.map_congr_left fun a _ => ?_
    rw [attributeText]
    simp

end CompileContext

namespace Instance

def taken (data : Json) (names : List String) (name : String) : Option Json :=
  if names.contains name then data.resolve? name else none

theorem taken_concat (data : Json) (names : List String) (n : String) :
    taken data (names ++ [n]) = fun m => if m = n then data.resolve? n else taken data names m := by
  funext m
  rw [taken, taken]
  by_cases hm : m = n <;> simp [hm]

variable {ctx : CompileContext} {b : Blueprint} {id : NodeId} {l : Label} {ss : List Site}
  {d₀ d₁ d : Document} {i : Instance} {value? : String → Option Json} {name : String}

/-- The instance has taken values for bound properties, and nothing else has happened since `d₁`. -/
structure HasTaken (ctx : CompileContext) (b : Blueprint) (id : NodeId) (l : Label) (ss : List Site)
    (d₀ d₁ : Document) (value? : String → Option Json) (d : Document) (i : Instance) : Prop where
  layout : i.Layout d₀ d (accessorsAt ctx b id l ss) (.node id (shapesAll ss)) fun _ => []
  accessors : i.accessors = ⟨accessorsAt ctx b id l ss⟩
  values : ∀ m, i.get? m = value? m
  marked : ∀ m ∈ allMarks id l ss, (d.labelAt m.1).bare = (ctx.markLabel value? m.2).bare
  unmarked : ∀ x, x ∉ (allMarks id l ss).map (·.1) → d.label? x = d₁.label? x

theorem hasTaken_none (he : d.Exhibits id l ss) (hs : SoundView l (Site.parts ss))
    (hlayout : i.Layout d₀ d (accessorsAt ctx b id l ss) (.node id (shapesAll ss)) fun _ => [])
    (haccessors : i.accessors = ⟨accessorsAt ctx b id l ss⟩) (hvalues : i.values = .empty) :
    HasTaken ctx b id l ss d₀ d (fun _ => none) d i := by
  refine ⟨hlayout, haccessors, fun m => ?_, fun m hm => ?_, fun _ _ => rfl⟩
  · rw [get?, hvalues]
    rfl
  · rw [markLabel_none, labelAt, (he.label_of_mem hs m hm).1]
    rfl

theorem mem_own_of_mem_allMarks {m : NodeId × Mark} (hm : m ∈ allMarks id l ss) :
    m.1 ∈ (Shape.node id (shapesAll ss)).ids :=
  (allMarks_sublist id l ss).subset (List.mem_map_of_mem hm)

theorem HasTaken.take (h : HasTaken ctx b id l ss d₀ d₁ value? d i)
    (hn : ((allMarks id l ss).map (·.1)).Nodup) {ls : List BoundLocation}
    (hget : i.accessors.get? name = some (.bound ls)) (v : Json) :
    HasTaken ctx b id l ss d₀ d₁ (fun m => if m = name then some v else value? m)
      (writeLocations d name (i.values.put name v) ls) ((i.withValue name v).notify name) := by
  have hls := bound_mem_accessorsAt (h.layout.mem_of_get? hget)
  have hvalues : ∀ m, (i.values.put name v).get? m = if m = name then some v else value? m := by
    intro m
    by_cases hm : m = name
    · rw [if_pos hm, hm, Table.get?_put_self]
    · rw [if_neg hm, Table.get?_put_of_ne _ _ hm]
      exact h.values m
  refine ⟨((h.layout.write hget _).withValue name v).receive _, h.accessors, hvalues,
    fun m hm => ?_, fun x hx => ?_⟩
  · have hown : m.1 ∈ ((Shape.node id (shapesAll ss)).extendBy fun _ => []).ids :=
      Shape.mem_ids_extendBy.mpr (.inl (mem_own_of_mem_allMarks hm))
    obtain ⟨k, hk⟩ := h.layout.grown.head_holds.live _ hown
    have hold := h.marked m hm
    rw [labelAt, label?_of_node? hk] at hold
    rw [labelAt, label?_writeLocations, label?_of_node? hk, hls, ctx.filter_locationsOf hn hm]
    refine ctx.bare_inscribeAll_markPlaces hold hvalues (fun n hne => if_neg hne) ?_
    rw [if_pos rfl]
    rfl
  · have hnone : ls.filter (·.place.owner = x) = [] := by
      rw [List.filter_eq_nil_iff]
      intro r hr
      rw [decide_eq_true_eq]
      rintro rfl
      rw [hls] at hr
      exact hx (owner_mem_of_mem_places (mem_locationsOf.mp hr))
    rw [label?_writeLocations, hnone, ← h.unmarked x hx]
    cases d.label? x <;> rfl

theorem takeAllWith_values (build : Build) {data : Json}
    (hn : ((allMarks id l ss).map (·.1)).Nodup) (names : List String)
    (hnames : ∀ n ∈ names, ∃ ls, (Table.mk (accessorsAt ctx b id l ss)).get? n = some (.bound ls))
    (rest done : List String) {s : Stage}
    (h : HasTaken ctx b id l ss d₀ d₁ (taken data done) s.document i) :
    ∃ s' i', takeAllWith build data s i (names ++ rest) = takeAllWith build data s' i' rest ∧
      HasTaken ctx b id l ss d₀ d₁ (taken data (done ++ names)) s'.document i' := by
  induction names generalizing s i done with
  | nil => exact ⟨s, i, rfl, by rwa [List.append_nil]⟩
  | cons n names ih =>
    have hrest := fun m hm => hnames m (List.mem_cons_of_mem _ hm)
    rw [List.cons_append, takeAllWith, List.append_cons done n names]
    cases hv : data.resolve? n with
    | none =>
      have hsame : taken data (done ++ [n]) = taken data done := by
        rw [taken_concat, hv]
        funext m
        by_cases hm : m = n <;> simp [taken, hm, hv]
      rw [← hsame] at h
      exact ih hrest _ h
    | some v =>
      obtain ⟨ls, hls⟩ := hnames n List.mem_cons_self
      rw [← h.accessors] at hls
      have hassign : assignWith build s i n v = ⟨s.withDocument
          (writeLocations s.document n (i.values.put n v) ls), (i.withValue n v).notify n, none⟩ := by
        rw [assignWith, hls]
        rfl
      have hnext := h.take hn hls v
      rw [← hv, ← taken_concat] at hnext
      dsimp only
      rw [hassign]
      exact ih hrest _ hnext

/-- The instance holds copies in the regions `done`, none in the regions `rest`, and its own labels
are those of `d₂`. -/
structure HasCopied (ctx : CompileContext) (v : Scope) (as : List (String × Accessor Instance))
    (own : Shape) (d₀ d₂ : Document) (done rest : List Anchored) (more : NodeId → List Shape)
    (d : Document) (i : Instance) : Prop where
  layout : i.Layout d₀ d as own more
  pending : ∀ g ∈ rest,
    i.accessors.get? g.name = some (.iterating g.anchor (ctx.view g.label g.parts) [])
  labels : ∀ x ∈ own.ids, d.label? x = d₂.label? x
  copied : ∀ x ∈ own.ids, (more x).map (fun t => (d.treeAt t).bare) =
    (done.filter (·.anchor = x)).flatMap (ctx.copiesOf v)

theorem HasCopied.skip {v : Scope} {as : List (String × Accessor Instance)} {own : Shape}
    {d₂ d' : Document} {done rest : List Anchored} {g : Anchored} {more : NodeId → List Shape}
    (h : HasCopied ctx v as own d₀ d₂ done (g :: rest) more d i) (hitems : v.items g.name = [])
    (hd : Grown d d' []) : HasCopied ctx v as own d₀ d₂ (done ++ [g]) rest more d' i := by
  have hnode : ∀ x, d'.node? x = d.node? x := fun x => hd.frame x (by simp)
  refine ⟨h.layout.keep hd, fun k hk => h.pending k (List.mem_cons_of_mem _ hk), fun x hx => ?_,
    fun x hx => ?_⟩
  · rw [label?, hnode, ← label?]
    exact h.labels x hx
  · have htree : ∀ t : Shape, d'.treeAt t = d.treeAt t := fun t => treeAt_frame fun x _ => hnode x
    have hnone : ([g].filter (·.anchor = x)).flatMap (ctx.copiesOf v) = [] := by
      rw [List.flatMap_eq_nil_iff]
      intro k hk
      obtain rfl := List.mem_singleton.mp (List.mem_of_mem_filter hk)
      rw [copiesOf, hitems]
      rfl
    rw [List.filter_append, List.flatMap_append, hnone, List.append_nil, ← h.copied x hx]
    simp only [htree]

theorem HasCopied.regenerate {v : Scope} {as : List (String × Accessor Instance)} {own : Shape}
    {d₂ d' : Document} {done rest : List Anchored} {g : Anchored} {more : NodeId → List Shape}
    (h : HasCopied ctx v as own d₀ d₂ done (g :: rest) more d i)
    (hnames : ((g :: rest).map (·.name)).Nodup) {ts : List Shape} {batch : List Instance}
    (hids : ts.map Shape.id = batch.map Instance.root) (hts : Grown d d' ts)
    (htrees : List.Forall₂ (fun item t =>
      (d'.treeAt t).bare = (ctx.fillView g.label g.parts item).bare) (v.items g.name) ts) :
    HasCopied ctx v as own d₀ d₂ (done ++ [g]) rest
      (fun x => more x ++ if x = g.anchor then ts else [])
      (appendRoots (removeRoots d' []) g.anchor batch)
      (i.withAccessor g.name (.iterating g.anchor (ctx.view g.label g.parts) batch)) := by
  have hall : ∀ x, (more x).filter
      (fun t => !(([] : List Instance).map Instance.root).contains t.id) = more x := fun x => by simp
  have hpending := h.pending g List.mem_cons_self
  have hlayout := h.layout.regenerate hpending hids hts
  have hlabels := (h.layout.grown_regenerate hpending hids hts).2
  simp only [hall] at hlayout hlabels
  have hlabel : ∀ x, (appendRoots (removeRoots d' []) g.anchor batch).label? x = d'.label? x :=
    fun x => hlabels x (by tauto)
  have htree : ∀ t : Shape, (appendRoots (removeRoots d' []) g.anchor batch).treeAt t =
      d'.treeAt t := fun t => treeAt_congr fun x _ => hlabel x
  have hlive : ∀ x ∈ (own.extendBy more).ids, d'.label? x = d.label? x := by
    intro x hx
    obtain ⟨n, hread⟩ := h.layout.grown.head_holds.live x hx
    rw [label?, hts.keeps hread, ← label?]
  refine ⟨hlayout, fun k hk => ?_, fun x hx => ?_, fun x hx => ?_⟩
  · have hne : k.name ≠ g.name := by
      rw [List.map_cons, List.nodup_cons] at hnames
      exact fun e => hnames.1 (e ▸ List.mem_map_of_mem hk)
    rw [withAccessor, Table.get?_put_of_ne _ _ hne]
    exact h.pending k (List.mem_cons_of_mem _ hk)
  · rw [hlabel, hlive x (Shape.mem_ids_extendBy.mpr (.inl hx))]
    exact h.labels x hx
  · have hold : (more x).map (fun t => (d'.treeAt t).bare) =
        (more x).map fun t => (d.treeAt t).bare := by
      refine List.map_congr_left fun t ht => ?_
      rw [treeAt_congr fun y hy => hlive y (Shape.mem_ids_extendBy.mpr
        (.inr ⟨x, hx, List.mem_flatMap.mpr ⟨t, ht, hy⟩⟩))]
    have hnew : ts.map (fun t => (d'.treeAt t).bare) = ctx.copiesOf v g := by
      rw [copiesOf, ← List.forall₂_eq_eq_eq, List.forall₂_map_left_iff, List.forall₂_map_right_iff]
      exact htrees.flip
    simp only [htree]
    rw [List.map_append, hold, h.copied x hx, List.filter_append, List.flatMap_append]
    congr 1
    by_cases hx : x = g.anchor
    · rw [if_pos hx, hnew]
      simp [hx]
    · have hne : g.anchor ≠ x := Ne.symm hx
      rw [if_neg hx]
      simp [hne]

theorem HasCopied.receive {v : Scope} {as : List (String × Accessor Instance)} {own : Shape}
    {d₂ : Document} {done rest : List Anchored} {more : NodeId → List Shape}
    (h : HasCopied ctx v as own d₀ d₂ done rest more d i) (n : String) (w : Json) (k : Hook) :
    HasCopied ctx v as own d₀ d₂ done rest more d ((i.withValue n w).receive k) :=
  ⟨(h.layout.withValue n w).receive k, h.pending, h.labels, h.copied⟩

/-- A build that makes an instance for every item, each of which shows the filled view. -/
structure Fills (build : Build) (ctx : CompileContext) (l : Label) (ps : List Part) : Prop where
  addsTree : build.AddsTree (ctx.view l ps) fun item t => t.bare = (ctx.fillView l ps item).bare
  built : ∀ s item, ∃ s' i, build s (ctx.view l ps) item = (s', .ok i)

def itemsOf : Json → List Json
  | .array items => items
  | _ => []

/-- The next region takes its value: copies come for the items of an array, and a value that is no array
is refused. -/
theorem HasCopied.assign {build : Build} {v : Scope} {as : List (String × Accessor Instance)}
    {own : Shape} {d₂ : Document} {done rest : List Anchored} {g : Anchored}
    {more : NodeId → List Shape} {s : Stage} {w : Json}
    (h : HasCopied ctx v as own d₀ d₂ done (g :: rest) more s.document i)
    (hn : ((g :: rest).map (·.name)).Nodup) (hg : Fills build ctx g.label g.parts)
    (hitems : v.items g.name = itemsOf w) :
    ∃ more', HasCopied ctx v as own d₀ d₂ (done ++ [g]) rest more'
      (assignWith build s i g.name w).stage.document (assignWith build s i g.name w).self := by
  have hpending := h.pending g List.mem_cons_self
  have hassigned : Assigned build (fun _ item t =>
      t.bare = (ctx.fillView g.label g.parts item).bare) s i g.name w
      (assignWith build s i g.name w) := by
    refine assignWith_assigned h.layout.grown.tidy fun a view cs hget => ?_
    rw [hpending] at hget
    obtain ⟨-, rfl, -⟩ := Accessor.iterating.inj (Option.some.inj hget)
    exact hg.addsTree
  generalize assignWith build s i g.name w = o at hassigned
  cases hassigned with
  | written get =>
    rw [hpending] at get
    cases get
  | kept get =>
    rw [hpending] at get
    cases get
  | @regenerated a view former batch items s' d' ts get value ids grown trees document =>
    rw [hpending] at get
    obtain ⟨rfl, rfl, rfl⟩ := Accessor.iterating.inj (Option.some.inj get)
    have hthese : v.items g.name = items := by rw [hitems, value, itemsOf]
    rw [← hthese] at trees
    have hdone := h.regenerate hn ids grown trees
    rw [← document] at hdone
    exact ⟨_, hdone.receive g.name w _⟩
  | @refused a view former s' e get reason grown =>
    rw [hpending] at get
    obtain ⟨rfl, rfl, rfl⟩ := Accessor.iterating.inj (Option.some.inj get)
    refine ⟨more, h.skip ?_ grown⟩
    rw [hitems]
    cases reason with
    | noArray kind =>
      unfold itemsOf
      split
      · rename_i items
        exact absurd rfl (kind items)
      · rfl
    | @failed items item s₁ s₂ e e' value mem tidy failure =>
      obtain ⟨s₃, j, hok⟩ := hg.built s₁ item
      rw [hok] at failure
      cases (Prod.mk.inj failure).2

theorem takeAllWith_regions {build : Build} {v : Scope} {data : Json}
    {as : List (String × Accessor Instance)} {own : Shape} {d₂ : Document}
    (rest : List Anchored) (hn : (rest.map (·.name)).Nodup)
    (hfills : ∀ g ∈ rest, Fills build ctx g.label g.parts)
    (hitems : ∀ n, v.items n = match data.resolve? n with
      | some (.array items) => items
      | _ => []) {s : Stage} {done : List Anchored} {more : NodeId → List Shape}
    (h : HasCopied ctx v as own d₀ d₂ done rest more s.document i) :
    ∃ more', HasCopied ctx v as own d₀ d₂ (done ++ rest) [] more'
      (takeAllWith build data s i (rest.map (·.name))).1.document
      (takeAllWith build data s i (rest.map (·.name))).2 := by
  induction rest generalizing s i done more with
  | nil => exact ⟨more, by rwa [List.append_nil]⟩
  | cons g rest ih =>
    have hnext := fun {s i done more} => @ih i (List.nodup_cons.mp hn).2
      (fun k hk => hfills k (List.mem_cons_of_mem _ hk)) s done more
    rw [List.map_cons, takeAllWith, List.append_cons done g rest]
    cases hw : data.resolve? g.name with
    | none =>
      refine hnext (h.skip ?_ (.refl h.layout.grown.tidy))
      rw [hitems, hw]
    | some w =>
      have hthese : v.items g.name = itemsOf w := by
        rw [hitems, hw]
        cases w <;> rfl
      obtain ⟨more', hone⟩ := h.assign hn (hfills g List.mem_cons_self) hthese
      dsimp only
      generalize assignWith build s i g.name w = o at hone ⊢
      obtain ⟨s', i', e⟩ := o
      cases e with
      | none => exact hnext hone
      | some e => exact hnext hone

end Instance

end LiveMarkup
