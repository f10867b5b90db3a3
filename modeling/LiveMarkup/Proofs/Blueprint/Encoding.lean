import LiveMarkup.Proofs.Blueprint.View

/-!
# What a walk found, as a blueprint

When a walk is over its pending bindings and its anchors are encoded. Nothing is lost in this if the
document exhibits a view and just the places of the view were found: then each of them has a path, and
the blueprint is the view.
-/

namespace LiveMarkup

open CompileContext Site

theorem indexIn_cons (name n : String) (names : List String) :
    indexIn (n :: names) name =
      if n = name then (0, n :: names)
      else ((indexIn names name).1 + 1, n :: (indexIn names name).2) := by
  rw [indexIn, List.idxOf?_cons]
  by_cases hn : n = name
  · simp [hn]
  · rw [if_neg (by simpa using hn), if_neg hn, indexIn]
    cases names.idxOf? name <;> rfl

theorem Table.put_zip {α : Type} (name : String) (r : α) (names : List String)
    (located : List (List α)) (h : located.length = names.length) :
    (Table.mk (names.zip located)).put name
        (((Table.mk (names.zip located)).get? name).getD [] ++ [r]) =
      ⟨(indexIn names name).2.zip
        ((located ++ List.replicate ((indexIn names name).2.length - names.length) []).modify
          (indexIn names name).1 (· ++ [r]))⟩ := by
  induction names generalizing located with
  | nil =>
    obtain rfl := List.length_eq_zero_iff.mp h
    rfl
  | cons n names ih =>
    obtain ⟨rs, located, rfl⟩ := List.exists_cons_of_length_eq_add_one h
    have hrest := congrArg Table.entries (ih located (by simpa using h))
    rw [indexIn_cons]
    by_cases hn : n = name
    · simp [Table.put, Table.putEntry, Table.get?, hn]
    · rw [if_neg hn]
      simp only [Table.put, Table.get?] at hrest ⊢
      simp [Table.putEntry, hn, hrest]

abbrev Bindings := List String × List PendingBinding

def TreeWalker.bindings (w : TreeWalker) : Bindings := (w.names, w.pending)

def Bindings.bind (r : Bindings) (p : String × BoundLocation) : Bindings :=
  ((indexIn r.1 p.1).2, r.2 ++ [⟨(indexIn r.1 p.1).1, p.2.place, p.2.expression⟩])

def Bindings.bindAll (r : Bindings) (ps : List (String × BoundLocation)) : Bindings :=
  ps.foldl Bindings.bind r

theorem Bindings.bindAll_append (r : Bindings) (ps qs : List (String × BoundLocation)) :
    r.bindAll (ps ++ qs) = (r.bindAll ps).bindAll qs :=
  List.foldl_append

def EncodesTo (d : Document) (root : NodeId) (names : List String) (b : PendingBinding)
    (r : String × BindingRecord) : Prop :=
  names[b.property]? = some r.1 ∧ d.encode? root b.target = some r.2.path ∧
    b.expression = r.2.expression

/-- The pending bindings are encoded to the records, and none is lost. -/
structure EncodesAll (w : TreeWalker) (root : NodeId) (names : List String) (r : Bindings)
    (rs : List (String × BindingRecord)) : Prop where
  located : ∃ located : List (List BindingRecord), located.length = r.1.length ∧
    (∀ log, r.2.foldl (w.encodeBinding root) (List.replicate r.1.length [], log) = (located, log)) ∧
    ⟨r.1.zip located⟩ = recordTable ⟨names.map fun name => (name, [])⟩ rs
  pending : List.Forall₂ (EncodesTo w.document root r.1) r.2 rs

theorem EncodesTo.property_lt {d : Document} {root : NodeId} {names : List String}
    {bs : List PendingBinding} {rs : List (String × BindingRecord)}
    (h : List.Forall₂ (EncodesTo d root names) bs rs) : ∀ b ∈ bs, b.property < names.length := by
  induction h with
  | nil => simp
  | cons hb _ ih => exact List.forall_mem_cons.mpr ⟨(List.getElem?_eq_some_iff.mp hb.1).1, ih⟩

theorem modify_append_of_lt {α : Type} {xs : List α} {i : Nat} (h : i < xs.length) (ys : List α)
    (f : α → α) : (xs ++ ys).modify i f = xs.modify i f ++ ys := by
  rw [List.modify_eq_take_drop, List.modify_eq_take_drop, List.take_append_of_le_length h.le,
    List.drop_append_of_le_length h.le, List.append_assoc]
  cases hd : xs.drop i with
  | nil => exact absurd (List.drop_eq_nil_iff.mp hd) (by omega)
  | cons y rest => rfl

theorem TreeWalker.foldl_encodeBinding_append {w : TreeWalker} {root : NodeId}
    {bs : List PendingBinding} {located : List (List BindingRecord)} {log : Log}
    (h : ∀ b ∈ bs, b.property < located.length) (more : List (List BindingRecord)) :
    bs.foldl (w.encodeBinding root) (located ++ more, log) =
      ((bs.foldl (w.encodeBinding root) (located, log)).1 ++ more,
        (bs.foldl (w.encodeBinding root) (located, log)).2) := by
  induction bs generalizing located log with
  | nil => rfl
  | cons b bs ih =>
    have hb := h b List.mem_cons_self
    have hstep : w.encodeBinding root (located ++ more, log) b =
        ((w.encodeBinding root (located, log) b).1 ++ more,
          (w.encodeBinding root (located, log) b).2) ∧
        (w.encodeBinding root (located, log) b).1.length = located.length := by
      rw [encodeBinding, encodeBinding]
      cases w.document.encode? root b.target with
      | none => exact ⟨rfl, rfl⟩
      | some path =>
        dsimp only
        rw [modify_append_of_lt hb]
        exact ⟨rfl, List.length_modify ..⟩
    rw [List.foldl_cons, List.foldl_cons, hstep.1]
    exact ih fun b' hb' => by
      rw [hstep.2]
      exact h b' (List.mem_cons_of_mem _ hb')

theorem encodesAll_nil (w : TreeWalker) (root : NodeId) (names : List String) :
    EncodesAll w root names (names, []) [] := by
  refine ⟨⟨List.replicate names.length [], by simp, fun _ => rfl, ?_⟩, .nil⟩
  have hzip : names.zip (List.replicate names.length ([] : List BindingRecord)) =
      names.map fun name => (name, []) := by
    induction names with
    | nil => rfl
    | cons n names ih => simpa [List.replicate_succ] using ih
  rw [hzip]
  rfl

theorem EncodesTo.bind {d : Document} {root : NodeId} {r : Bindings} {b : PendingBinding}
    {o : String × BindingRecord} (h : EncodesTo d root r.1 b o) (p : String × BoundLocation) :
    EncodesTo d root (r.bind p).1 b o := by
  obtain ⟨hlt, hname⟩ := List.getElem?_eq_some_iff.mp h.1
  obtain ⟨added, hadded, -⟩ := indexIn_eq r.1 p.1
  refine ⟨?_, h.2⟩
  rw [Bindings.bind, hadded, List.getElem?_append_left hlt]
  exact h.1

theorem EncodesAll.bind {w : TreeWalker} {root : NodeId} {names : List String} {r : Bindings}
    {rs : List (String × BindingRecord)} (h : EncodesAll w root names r rs)
    {p : String × BoundLocation} {path : Path} (hp : w.document.encode? root p.2.place = some path) :
    EncodesAll w root names (r.bind p) (rs ++ [(p.1, ⟨path, p.2.expression⟩)]) := by
  obtain ⟨located, hlength, hfold, htable⟩ := h.located
  obtain ⟨added, hadded, -, -, hat⟩ := indexIn_eq r.1 p.1
  have hproperty : ∀ b ∈ r.2,
      b.property < (List.replicate r.1.length ([] : List BindingRecord)).length := by
    rw [List.length_replicate]
    exact EncodesTo.property_lt h.pending
  have hmore : List.replicate (indexIn r.1 p.1).2.length ([] : List BindingRecord) =
      List.replicate r.1.length [] ++
        List.replicate ((indexIn r.1 p.1).2.length - r.1.length) [] := by
    rw [List.replicate_append_replicate, hadded, List.length_append]
    congr 1
    omega
  refine ⟨⟨(located ++ List.replicate ((indexIn r.1 p.1).2.length - r.1.length) []).modify
    (indexIn r.1 p.1).1 (· ++ [(⟨path, p.2.expression⟩ : BindingRecord)]), ?_, fun log => ?_, ?_⟩, ?_⟩
  · rw [List.length_modify, List.length_append, List.length_replicate, hlength, Bindings.bind, hadded,
      List.length_append]
    omega
  · rw [Bindings.bind, List.foldl_append, hmore, TreeWalker.foldl_encodeBinding_append hproperty, hfold,
      List.foldl_cons, List.foldl_nil, TreeWalker.encodeBinding]
    simp only [hp]
  · rw [recordTable_append, ← htable]
    exact (Table.put_zip p.1 _ r.1 located hlength).symm
  · have hnew : EncodesTo w.document root (r.bind p).1
        ⟨(indexIn r.1 p.1).1, p.2.place, p.2.expression⟩ (p.1, ⟨path, p.2.expression⟩) := by
      refine ⟨?_, hp, rfl⟩
      rw [Bindings.bind, hadded]
      exact hat
    exact List.rel_append (h.pending.imp fun _ _ ho => ho.bind p) (.cons hnew .nil)

theorem EncodesAll.bindAll {w : TreeWalker} {root : NodeId} {names : List String}
    {ps : List (String × BoundLocation)} {os : List (String × BindingRecord)}
    (hps : List.Forall₂ (fun p o => p.1 = o.1 ∧ w.document.encode? root p.2.place = some o.2.path ∧
      p.2.expression = o.2.expression) ps os) {r : Bindings} {rs : List (String × BindingRecord)}
    (h : EncodesAll w root names r rs) : EncodesAll w root names (r.bindAll ps) (rs ++ os) := by
  induction hps generalizing r rs with
  | nil => rwa [List.append_nil]
  | @cons p o ps os hp _ ih =>
    obtain ⟨hname, hpath, hexpr⟩ := hp
    have hone := h.bind hpath
    rw [hname, hexpr] at hone
    have hall := ih hone
    rwa [List.append_assoc] at hall

def foundAnchor (ctx : CompileContext) (a : Anchored) : String × NodeId × Blueprint :=
  (a.name, a.anchor, ctx.view a.label a.parts)

/-- The walk has reshaped the tree at `root` into the skeleton of a view and has found the places and
the regions of the view. -/
structure Finished (ctx : CompileContext) (w : TreeWalker) (root : NodeId) (names : List String)
    (l : Label) (ss : List Site) : Prop where
  exhibits : w.document.Exhibits root l ss
  bindings : w.bindings =
    Bindings.bindAll (names, []) (places ctx (Document.Exhibits.allMarks root l ss))
  regions : w.regions.entries = (anchoredAll root ss).map (foundAnchor ctx)

theorem Document.Exhibits.encode?_of_follow? {d : Document} {root : NodeId} {l : Label}
    {ss : List Site} (h : d.Exhibits root l ss) {p : Path} {t : Place}
    (hp : d.follow? root p.frames = some t) : d.encode? root t = some p := by
  have hdecode : d.decode? root p = some t := (h.decode?_eq p).trans hp
  exact (h.holds.encode?_eq_some_iff h.nodup (h.holds.below_of_decode? h.nodup hdecode)).mpr hdecode

namespace Finished

variable {ctx : CompileContext} {w : TreeWalker} {root : NodeId} {names : List String} {l : Label}
  {ss : List Site}

theorem encodesAll (h : Finished ctx w root names l ss) (hs : SoundView l (Site.parts ss)) :
    EncodesAll w root names w.bindings (ctx.viewRecords l (Site.parts ss)) := by
  have hlocated := h.exhibits.located_viewRecords ctx hs
  rw [← List.forall₂_eq_eq_eq, List.forall₂_map_left_iff, List.forall₂_map_right_iff] at hlocated
  rw [h.bindings]
  refine (encodesAll_nil w root names).bindAll (hlocated.flip.imp fun p o ho => ?_)
  obtain ⟨hname, ho⟩ := Prod.mk.inj ho
  obtain ⟨hplace, hexpr⟩ := Prod.mk.inj ho
  exact ⟨hname.symm, h.exhibits.encode?_of_follow? hplace, hexpr.symm⟩

/-- Every anchor is encoded, each to that of its region. -/
theorem anchors (h : Finished ctx w root names l ss) :
    List.Forall₂ (fun g r => w.encodeRegion? root g = some r) w.regions.entries
      (ctx.regionsAll .root [] (Site.parts ss)) := by
  have hlocated := h.exhibits.located_viewRegions ctx
  rw [← List.forall₂_eq_eq_eq, List.forall₂_map_left_iff, List.forall₂_map_right_iff] at hlocated
  rw [h.regions, List.forall₂_map_left_iff]
  refine hlocated.flip.imp fun a g hg => ?_
  obtain ⟨hname, hg⟩ := Prod.mk.inj hg
  obtain ⟨hanchor, hview⟩ := Prod.mk.inj hg
  rw [TreeWalker.encodeRegion?, foundAnchor, h.exhibits.encode?_of_follow? hanchor, Option.map_some,
    ← hname, ← hview]

theorem tree?_eq (h : Finished ctx w root names l ss) :
    w.document.tree? root = some (.node l.blanked (treesAll (Site.parts ss))) := by
  have htree := h.exhibits.holds.tree? h.exhibits.nodup
  rwa [Document.treeAt_node, h.exhibits.trees, Document.labelAt, h.exhibits.label] at htree

/-- The blueprint is the view, and there is nothing to warn of. -/
theorem blueprint_eq (h : Finished ctx w root names l ss) (hs : SoundView l (Site.parts ss))
    (targetClass : String) :
    w.blueprint root targetClass = (ctx.viewWith names targetClass l (Site.parts ss), w.log) := by
  obtain ⟨located, -, hfold, htable⟩ := (h.encodesAll hs).located
  rw [TreeWalker.bindings] at hfold htable
  rw [TreeWalker.blueprint, hfold]
  dsimp only at htable ⊢
  rw [htable, filterMap_of_forall₂ h.anchors, viewWith, regionTable_regionsAll ctx hs.drivers,
    h.tree?_eq]
  rfl

end Finished

end LiveMarkup
