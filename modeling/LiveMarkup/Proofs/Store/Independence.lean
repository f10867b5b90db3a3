import LiveMarkup.Proofs.Store.Acts
import LiveMarkup.Proofs.Instance.Resolvable

/-!
# Instances in one document are independent

However the instances of a document are worked on in turns, and whatever slots they take from each
other, each of them looks and answers as if it were alone in a document.
-/

namespace LiveMarkup

open Document

/-- An instance that is embedded in a tree of a document owns that, whatever else there is. -/
theorem Owned.standalone {d : Document} {s : Shape} {i : Instance} (tidy : d.Tidy)
    (held : d.Holds none s) (nodup : s.ids.Nodup) (root : s.id = i.root) (embedded : i.Embedded d) :
    Owned (d.remove s.id) d [s] [i] := by
  have hnode := held.node?_remove nodup (by simp)
  refine ⟨⟨tidy, by simpa using held, by simpa using nodup, fun x hx => ?_, fun x hx => ?_⟩,
    by simp [root], by simpa using embedded⟩
  · rw [List.flatMap_singleton] at hx
    rw [hnode, if_pos hx]
  · rw [List.flatMap_singleton] at hx
    rw [hnode, if_neg hx]
    simp

namespace Store

variable {c c' : Store} {b : String → Store} {d₀ : Document} {name : String} {a : Act}

def state (c : Store) : EngineState := ⟨c.document, ↑(c.residents.entries.map (·.2))⟩

theorem exists_rest (hn : c.residents.names.Nodup) (name : String) :
    ∃ rest : List Instance, c.state.instances = ↑((c.residents.get? name).toList ++ rest) ∧
      (∀ i, (↑((c.residents.put name i).entries.map (·.2)) : Multiset Instance) = ↑(i :: rest)) ∧
      ∀ n i, n ≠ name → c.residents.get? n = some i → i ∈ rest := by
  obtain ⟨before, old, after, hentries, hput, -, hold⟩ := Table.exists_put hn name
  refine ⟨(before ++ after).map (·.2), ?_, fun i => ?_, fun n i hne hget => ?_⟩
  · have hmap : old.map (·.2) = (c.residents.get? name).toList := by
      rw [hold]
      cases c.residents.get? name <;> rfl
    rw [state, hentries, ← hmap, List.map_append, List.map_append, List.map_append]
    refine Multiset.coe_eq_coe.mpr ?_
    rw [List.append_assoc]
    exact List.perm_append_comm_assoc _ _ _
  · rw [hput, List.map_append, List.map_append, List.map_cons]
    exact Multiset.coe_eq_coe.mpr List.perm_middle
  · have hmem := (Table.get?_eq_some_iff hn).mp hget
    rw [hentries, List.mem_append, List.mem_append] at hmem
    refine List.mem_map.mpr ⟨(n, i), ?_, rfl⟩
    rw [List.mem_append]
    rcases hmem with (hmem | hmem) | hmem
    · exact .inl hmem
    · rw [hold] at hmem
      cases hold : c.residents.get? name with
      | none => simp [hold] at hmem
      | some j =>
        rw [hold] at hmem
        exact absurd (Prod.mk.inj (List.mem_singleton.mp hmem)).1 hne
    · exact .inr hmem

theorem LocalChange.state_reaches (h : LocalChange c c' name) (hn : c.residents.names.Nodup) :
    c.state.Reaches c'.state := by
  obtain ⟨rest, hinstances, hput, -⟩ := exists_rest hn name
  have hreach := h.reaches.add ↑rest
  rw [EngineState.add, EngineState.add, Multiset.coe_add, Multiset.coe_add] at hreach
  have hinstances' : c'.state.instances = ↑((c'.residents.get? name).toList ++ rest) := by
    rcases h.residents with hsame | ⟨i, hi⟩
    · have hsameCast : c'.state.instances = c.state.instances := by rw [state, state, hsame]
      rw [hsameCast, hinstances, hsame]
    · rw [state, hi, hput, Table.get?_put_self]
      rfl
  rw [← hinstances, ← hinstances'] at hreach
  exact hreach

theorem LocalChange.names (h : LocalChange c c' name) (hn : c.residents.names.Nodup) :
    c'.residents.names.Nodup := by
  rcases h.residents with hsame | ⟨i, hi⟩
  · rwa [hsame]
  · rw [hi]
    exact Table.nodup_names_put hn _ _

theorem LocalChange.get?_of_ne (h : LocalChange c c' name) {n : String} (hne : n ≠ name) :
    c'.residents.get? n = c.residents.get? n := by
  rcases h.residents with hsame | ⟨i, hi⟩
  · rw [hsame]
  · rw [hi, Table.get?_put_of_ne _ _ hne]

/-- The instance of each name has a counterpart in a store of its own. Each of them owns a tree in
the document, which is otherwise `d₀`. -/
structure Shared (d₀ : Document) (c : Store) (b : String → Store) : Prop where
  names : c.residents.names.Nodup
  owned : c.state.Owned d₀
  matched : ∀ name, Matches c (b name) name

theorem Shared.tidy (h : Shared d₀ c b) : c.document.Tidy := by
  obtain ⟨ss, is, -, howned⟩ := h.owned
  exact howned.grown.tidy

theorem Shared.frame (h : Shared d₀ c b) (hs : LocalChange c c' name) {n : String} {i : Instance}
    (hne : n ≠ name) (hi : c.residents.get? n = some i) {x : NodeId}
    (hx : c.document.Under x i.root) : c'.document.node? x = c.document.node? x := by
  obtain ⟨rest, hinstances, -, hmem⟩ := exists_rest h.names name
  obtain ⟨ss, howned⟩ := h.owned.listed _ hinstances
  have hall : i ∈ (c.residents.get? name).toList ++ rest :=
    List.mem_append_right _ (hmem n i hne hi)
  obtain ⟨s, hs', hid⟩ := howned.exists_shape hall
  have hheld := howned.grown.holds s hs'
  obtain ⟨m, hm⟩ := hheld.live x (hheld.mem_ids_iff.mpr (hid ▸ hx))
  refine hs.frame x m hm fun k hk hxk => ?_
  rw [hk, Option.toList_some, List.singleton_append] at howned
  obtain ⟨t, ss, rfl, -, -⟩ := List.map_eq_cons_iff.mp howned.roots
  exact howned.apart hxk i (hmem n i hne hi) hx

theorem Matches.localChange {b : Store} {n : String} (h : Matches c b n) (tidy : c'.document.Tidy)
    (residents : c'.residents.get? n = c.residents.get? n)
    (frame : ∀ i x, c.residents.get? n = some i → c.document.Under x i.root →
      c'.document.node? x = c.document.node? x) : Matches c' b n := by
  cases h with
  | absent left right tidy' => exact .absent (residents.trans left) right tidy'
  | @present i base base' f s left right t =>
    have hheld := t.left.grown.head_holds
    have hsame : ∀ x ∈ s.ids, c'.document.node? x = c.document.node? x := fun x hx =>
      frame i x left (t.left.mem_ids_iff.mp hx)
    have hembedded : i.Embedded c'.document := (t.left.embedded i List.mem_cons_self).frame (frame i · left)
    have hleft := Owned.standalone tidy (hheld.frame hsame) t.left.grown.head_nodup t.left.root_eq hembedded
    refine .present (residents.trans left) right ⟨hleft, t.right, fun x hx => ?_⟩
    rw [t.labels x hx, label?, label?, hsame x (by simpa using hx)]

/-- An act is done with an instance in the shared document and with its counterpart. -/
theorem Shared.perform (h : Shared d₀ c b) (ha : a.Compiled) :
    Shared d₀ (c.perform a).1 (fun n => if a.name = n then ((b n).perform a).1 else b n) ∧
      ((b a.name).perform a).2 = (c.perform a).2 ∧ c.state.Reaches (c.perform a).1.state := by
  obtain ⟨hmatch, hreply, hchange⟩ := (h.matched a.name).perform ha h.tidy
  have hreaches := hchange.state_reaches h.names
  have howned := hreaches.owned h.owned
  obtain ⟨ss, is, -, hdocument⟩ := howned
  refine ⟨⟨hchange.names h.names, hreaches.owned h.owned, fun n => ?_⟩, hreply, hreaches⟩
  by_cases hn : a.name = n
  · subst hn
    rw [if_pos rfl]
    exact hmatch
  · rw [if_neg hn]
    have hne : n ≠ a.name := fun e => hn e.symm
    exact (h.matched n).localChange hdocument.grown.tidy (hchange.get?_of_ne hne)
      fun i x hi hx => h.frame hchange hne hi hx

theorem Shared.empty (hd : d₀.Tidy) : Shared d₀ ⟨d₀, .empty⟩ fun _ => .empty where
  names := List.nodup_nil
  owned := ⟨[], [], rfl, .nil hd⟩
  matched _ := .absent rfl rfl tidy_empty

/-- Each instance of a run goes through the acts that are done with it. -/
theorem Shared.run (h : Shared d₀ c b) {acts : List Act} (compiled : ∀ a ∈ acts, a.Compiled) :
    Shared d₀ (c.run acts) (fun n => (b n).run (acts.filter (·.name = n))) ∧
      ∀ n, c.replies n acts = (b n).replies n (acts.filter (·.name = n)) := by
  induction acts generalizing c b with
  | nil => exact ⟨h, fun _ => rfl⟩
  | cons a acts ih =>
    obtain ⟨hstep, hreply, -⟩ := h.perform (compiled a List.mem_cons_self)
    obtain ⟨hrun, hreplies⟩ := ih hstep fun a' ha' => compiled a' (List.mem_cons_of_mem _ ha')
    refine ⟨?_, fun n => ?_⟩
    · have hown : (fun n => (b n).run ((a :: acts).filter (·.name = n))) = fun n =>
          (if a.name = n then ((b n).perform a).1 else b n).run (acts.filter (·.name = n)) := by
        funext n
        by_cases hn : a.name = n
        · rw [List.filter_cons_of_pos (by simpa using hn), if_pos hn]
          rfl
        · rw [List.filter_cons_of_neg (by simpa using hn), if_neg hn]
      rw [hown]
      exact hrun
    · rw [replies, hreplies n]
      by_cases hn : a.name = n
      · subst hn
        rw [List.filter_cons_of_pos (by simp), if_pos rfl, if_pos rfl, replies, if_pos rfl, hreply]
      · rw [List.filter_cons_of_neg (by simpa using hn), if_neg hn, if_neg hn]

/-- One of the family of the instance of a name. -/
def find? (c : Store) (name : String) (way : List (String × Nat)) : Option Instance :=
  (c.residents.get? name).bind fun i => i.descend? way

end Store

/-! ### What can be seen -/

theorem Document.Holds.exists_part {d e : Document} {f : NodeId → NodeId} {s : Shape}
    {q q' : Option NodeId} (h : d.Holds q s) (h' : e.Holds q' (s.rename f)) (hn : s.ids.Nodup)
    {x : NodeId} (hx : x ∈ s.ids) : ∃ c r r', c.id = x ∧ c.ids ⊆ s.ids ∧ c.ids.Nodup ∧
      d.Holds r c ∧ e.Holds r' (c.rename f) := by
  induction h generalizing q' with
  | @node parent id cs l read below ih =>
    rw [Shape.ids_node, List.mem_cons, List.mem_flatMap] at hx
    rcases hx with rfl | ⟨k, hk, hx⟩
    · exact ⟨_, _, _, rfl, List.Subset.refl _, hn, .node read below, h'⟩
    · rw [Shape.rename_node] at h'
      obtain ⟨c, r, r', hid, hsub, hnc, hc, hc'⟩ :=
        ih k hk (h'.child (List.mem_map_of_mem hk)) (Shape.nodup_of_mem hn hk) hx
      exact ⟨c, r, r', hid, fun y hy => Shape.ids_subset_of_mem hk (hsub hy), hnc, hc, hc'⟩

/-- What can be seen of an instance: its markup, its text, the values of the form controls in its
subtree, the values that it keeps, and how many instances it keeps for each of its properties. -/
structure Appearance where
  html : String
  text : String
  controls : List (Option String)
  values : Table Json
  counts : List (String × Nat)

def Instance.appearance (d : Document) (i : Instance) : Appearance where
  html := i.render d
  text := i.textContent d
  controls := (d.descendants i.root).map d.controlValue?
  values := i.values
  counts := i.accessors.names.map fun n => (n, (i.children n).length)

theorem Renamed.appearance {d₀ e₀ d e : Document} {f : NodeId → NodeId} {s : Shape} {i g : Instance}
    {way : List (String × Nat)} (t : Renamed d₀ e₀ f [s] d e [i]) (hg : i.descend? way = some g) :
    (g.rename f).appearance e = g.appearance d := by
  have hroot : g.root ∈ s.ids := t.left.mem_ids_of_own hg .refl
  obtain ⟨c, r, r', hid, hsub, hn, hc, hc'⟩ := t.left.grown.head_holds.exists_part
    (t.right.grown.holds _ List.mem_cons_self) t.left.grown.head_nodup hroot
  have hlabels : ∀ x ∈ c.ids, e.label? (f x) = d.label? x := fun x hx =>
    t.labels x (by simpa using hsub hx)
  have hid' : (c.rename f).id = (g.rename f).root := by
    rw [Shape.id_rename, Instance.root_rename, hid]
  have hn' : (c.rename f).ids.Nodup := by
    rw [Shape.ids_rename]
    refine List.Nodup.map_on (fun x hx y hy hxy => ?_) hn
    exact t.injOn x (by simpa using hsub hx) y (by simpa using hsub hy) hxy
  have hdescendants : d.descendants g.root = c.ids := hid ▸ hc.descendants hn
  have hdescendants' : e.descendants (g.rename f).root = c.ids.map f := by
    rw [← hid', hc'.descendants hn', Shape.ids_rename]
  unfold Instance.appearance
  congr 1
  · rw [Instance.render, Instance.render, ← hid', ← hid, hc'.render hn', hc.render hn,
      treeAt_rename hlabels]
  · rw [Instance.textContent, Instance.textContent, Document.textContent, Document.textContent,
      hdescendants, hdescendants', List.filterMap_map]
    congr 1
    refine List.filterMap_congr fun x hx => ?_
    rw [Function.comp_apply, hlabels x hx]
  · rw [hdescendants, hdescendants', List.map_map]
    refine List.map_congr_left fun x hx => ?_
    rw [Function.comp_apply, controlValue?, controlValue?, hlabels x hx]
  · exact Instance.values_rename f g
  · rw [Instance.names_rename]
    refine List.map_congr_left fun n _ => ?_
    rw [Instance.children_rename, List.length_map]

namespace Store

variable {c : Store} {name : String}

theorem Matches.appearance {b : Store} (h : Matches c b name) (way : List (String × Nat)) :
    (b.find? name way).map (Instance.appearance b.document) =
      (c.find? name way).map (Instance.appearance c.document) := by
  cases h with
  | absent left right tidy => rw [find?, find?, left, right]; rfl
  | @present i base base' f s left right t =>
    rw [find?, find?, left, right, Option.bind_some, Option.bind_some, Instance.descend?_rename]
    cases hg : i.descend? way with
    | none => rfl
    | some g => exact congrArg some (t.appearance hg)

/-- Whatever is done in turns with instances that are placed in any document, each of them, and each
of its family, answers and looks as if what is done with it were done alone in an empty document. -/
theorem independent_run {d : Document} (tidy : d.Tidy) {acts : List Act}
    (compiled : ∀ a ∈ acts, a.Compiled) (name : String) :
    replies ⟨d, .empty⟩ name acts = empty.replies name (acts.filter (·.name = name)) ∧
      ∀ way, ((run ⟨d, .empty⟩ acts).find? name way).map
          (Instance.appearance (run ⟨d, .empty⟩ acts).document) =
        ((empty.run (acts.filter (·.name = name))).find? name way).map
          (Instance.appearance (empty.run (acts.filter (·.name = name))).document) := by
  obtain ⟨hshared, hreplies⟩ := (Shared.empty tidy).run compiled
  exact ⟨hreplies name, fun way => ((hshared.matched name).appearance way).symm⟩

def interleavedActs (b : Blueprint) : List Act :=
  let row (text : String) : Json := .object [("name", .string text)]
  [.place "left" .standard b none none, .place "right" .standard b none none,
    .ask "left" [] (.set "rows" (.array [row "a", row "b"])),
    .ask "right" [] (.configure (.object [("kind", .string "k"), ("rows", .array [row "c"])])),
    .ask "left" [] (.set "rows" (.array [row "d"])), .ask "left" [("rows", 0)] (.extend b)]

def emptiedDocument : Document := (Document.empty.graft (.node (.element "p") [])).1.remove 0

theorem compiled_interleavedActs {b : Blueprint} (h : b.IsCompiled) :
    ∀ a ∈ interleavedActs b, a.Compiled := by
  intro a ha
  simp only [interleavedActs, List.mem_cons, List.not_mem_nil, or_false] at ha
  rcases ha with rfl | rfl | rfl | rfl | rfl | rfl
  · exact h
  · exact h
  · trivial
  · trivial
  · trivial
  · exact h

theorem exists_compiled_listText :
    ∃ b log, Blueprint.compile .standard listText none = (.ok b, log) ∧ b.IsCompiled := by
  have hok : (Blueprint.compile .standard listText none).1.toOption.isSome = true := by decide +kernel
  rcases hcompile : Blueprint.compile .standard listText none with ⟨e | b, log⟩
  · rw [hcompile] at hok
    cases hok
  · exact ⟨b, log, rfl, _, _, _, b, log, hcompile, .self⟩

theorem independent_run_interleavedActs : ∃ b log, Blueprint.compile .standard listText none = (.ok b, log) ∧
    emptiedDocument.free = [0] ∧
    replies ⟨emptiedDocument, .empty⟩ "left" (interleavedActs b) =
      empty.replies "left" ((interleavedActs b).filter (·.name = "left")) ∧
    ∀ way, ((run ⟨emptiedDocument, .empty⟩ (interleavedActs b)).find? "left" way).map
        (Instance.appearance (run ⟨emptiedDocument, .empty⟩ (interleavedActs b)).document) =
      ((empty.run ((interleavedActs b).filter (·.name = "left"))).find? "left" way).map
        (Instance.appearance (empty.run ((interleavedActs b).filter (·.name = "left"))).document) := by
  obtain ⟨b, log, hcompile, hb⟩ := exists_compiled_listText
  obtain ⟨s, hcopies, -⟩ := tidy_empty.graft (.node (.element "p") [])
  exact ⟨b, log, hcompile, by decide +kernel,
    independent_run (hcopies.tidy.remove 0) (compiled_interleavedActs hb) "left"⟩

end Store

end LiveMarkup
