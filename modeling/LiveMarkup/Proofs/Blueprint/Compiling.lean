import LiveMarkup.Proofs.Blueprint.Walking
import LiveMarkup.Proofs.Document.Growth
import LiveMarkup.Proofs.Markup.BuiltDocument

namespace LiveMarkup

def skeletonRoot (roots : List Tree) : Tree :=
  match roots with
  | [.node l ts] =>
    if l.content.isElement then .node l ts else .node (.element "div") [.node l ts]
  | _ => .node (.element "div") roots

namespace Document

variable {d : Document} {ss : List Shape} {ts : List Tree}

theorem exists_wrap (h : Grown empty d ss) (ht : ss.map d.treeAt = ts) :
    ∃ s, (d.wrap (ss.map Shape.id)).2 = s.id ∧
      (d.wrap (ss.map Shape.id)).1.HoldsTree s (.node (.element "div") ts) := by
  obtain ⟨⟨w, ks⟩, hcopy, hid⟩ := h.tidy.graft (.leaf (.element "div"))
  rcases hgraft : d.graft (.leaf (.element "div")) with ⟨e, v⟩
  rw [hgraft] at hcopy hid
  obtain rfl : w = v := hid
  have hcreate : d.create (.element "div") = (e, w) := hgraft
  obtain rfl : ks = [] := by
    have htree := hcopy.tree
    rw [treeAt_node, Tree.leaf, Tree.node.injEq, List.map_eq_nil_iff] at htree
    exact htree.2
  have hkept : ss.map e.treeAt = ts := by
    rw [← ht]
    refine List.map_congr_left fun s hs => treeAt_frame fun x hx => ?_
    obtain ⟨n, hn⟩ := (h.holds s hs).live x hx
    exact hcopy.grown.keeps hn
  have hall := (h.append hcopy.grown).perm List.perm_append_comm
  rw [← List.append_nil ss, List.singleton_append] at hall
  obtain ⟨hgrown, hlabels⟩ := hall.attachAll (Shape.id_mem_ids (.node w []))
  have hshape : (Shape.node w []).extendAt w ss = .node w ss := by
    rw [Shape.extendAt, Shape.extendBy_node]
    simp
  rw [Shape.id] at hgrown hlabels
  rw [hshape] at hgrown
  rw [wrap, hcreate]
  dsimp only
  rw [List.foldl_map]
  refine ⟨.node w ss, rfl, hgrown.tidy, hgrown.head_holds, hgrown.head_nodup, ?_⟩
  have hlabel : e.label? w = some (.element "div") := Shows.label? hcopy.holds hcopy.tree
  rw [treeAt_node, labelAt, hlabels, hlabel, ← hkept]
  exact congrArg _ (List.map_congr_left fun s _ => treeAt_congr fun x _ => hlabels x)

theorem exists_skeletonRoot (roots : List Tree) :
    ∃ s, ((ofTrees roots).1.skeletonRoot (ofTrees roots).2).2 = s.id ∧
      ((ofTrees roots).1.skeletonRoot (ofTrees roots).2).1.HoldsTree s
        (LiveMarkup.skeletonRoot roots) := by
  obtain ⟨ss, hgrown, hids, htrees⟩ := tidy_empty.grown_graftAll roots
  rw [ofTrees]
  rw [← hids]
  generalize (empty.graftAll roots).1 = d at hgrown htrees ⊢
  obtain ⟨w, hw, hwrap⟩ := exists_wrap hgrown htrees
  rcases ss with _ | ⟨s, _ | ⟨s', ss⟩⟩
  · obtain rfl := htrees
    exact ⟨w, hw, hwrap⟩
  · rcases roots with _ | ⟨⟨l, ts⟩, _ | _⟩
    · cases htrees
    · have ht : d.treeAt s = .node l ts := (List.cons.inj htrees).1
      have hkind : d.kind? s.id = some l.kind := by
        rw [kind?, Shows.label? hgrown.head_holds ht]
        rfl
      rw [List.map_singleton] at hw hwrap ⊢
      rw [skeletonRoot, LiveMarkup.skeletonRoot, hkind]
      by_cases hl : l.content.isElement = true
      · have helement : some l.kind = some NodeKind.element := by
          rw [Label.kind]
          cases hc : l.content <;> simp_all [Content.isElement, Content.kind]
        rw [if_pos hl, if_pos helement]
        exact ⟨s, rfl, hgrown.tidy, hgrown.head_holds, hgrown.head_nodup, ht⟩
      · have helement : ¬ some l.kind = some NodeKind.element := by
          rw [Label.kind]
          cases hc : l.content <;> simp_all [Content.isElement, Content.kind]
        rw [if_neg hl, if_neg helement]
        exact ⟨w, hw, hwrap⟩
    · cases (List.cons.inj htrees).2
  · rcases roots with _ | ⟨⟨l, ts⟩, _ | ⟨t, roots⟩⟩
    · cases htrees
    · cases (List.cons.inj htrees).2
    · exact ⟨w, hw, hwrap⟩

end Document

theorem exists_skeleton_parse (text url : String) (preserve : Bool) :
    ∃ s, (parse text url preserve).skeleton.2 = s.id ∧
      (parse text url preserve).skeleton.1.HoldsTree s (skeletonRoot (parse text url preserve).roots) := by
  have hskeleton := Document.exists_skeletonRoot (parse text url preserve).roots
  rwa [ofTrees_parse] at hskeleton

theorem Tree.EveryLabel.imp {P Q : Label → Prop} {t : Tree} (h : t.EveryLabel P)
    (hpq : ∀ l, P l → Q l) : t.EveryLabel Q := by
  induction h with
  | node label _ ih => exact .node (hpq _ label) ih

/-- Attribute names that the source of a scanned text gives to one element stay different when their
placeholders are put back. -/
theorem NamedAttributes.namesApart {ctx : CompileContext} {text : String} {l : Label}
    (h : NamedAttributes (unifyLineEnds text.toList) l.attributes) (hn : NameList ctx.names)
    (hs : Scanned ctx.names text.toList) : ctx.NamesApart l := by
  have hscanned : ∀ n ∈ l.attributes.names, Scanned ctx.names n.toList := by
    intro n hmem
    obtain ⟨hpart, hends⟩ := h.parts n hmem
    refine hs.of_infix (isInfix_of_unifyLineEnds hpart fun hline => ?_)
    exact absurd (hends _ hline) (by decide)
  exact List.Nodup.map_on (fun a ha b hb => restore_injOn hn (hscanned a ha) (hscanned b hb)) h.nodup

theorem skeletonRoot_eq {P : Label → Prop} {roots : List Tree}
    (h : ∀ t ∈ roots, t.EveryLabel P) (hnew : P (.element "div")) :
    ∃ l ts, skeletonRoot roots = .node l ts ∧ l.content.isElement = true ∧
      (Tree.node l ts).EveryLabel P := by
  have hdiv : ∀ ts : List Tree, (∀ t ∈ ts, t.EveryLabel P) →
      (Tree.node (.element "div") ts).EveryLabel P := fun ts hts => .node hnew hts
  unfold skeletonRoot
  split
  · rename_i l ts
    split
    · exact ⟨l, ts, rfl, by assumption, h _ List.mem_cons_self⟩
    · exact ⟨_, _, rfl, rfl, hdiv _ h⟩
  · exact ⟨_, _, rfl, rfl, hdiv _ h⟩

/-- A template that compiles is scanned and parsed without errors, and its blueprint is the view of
the parts of its tree. -/
theorem compile_eq_ok {config : Config} {text : String} {targetClass : Option String} {b : Blueprint}
    {log : Log} (h : Blueprint.compile config text targetClass = (.ok b, log)) :
    firstMarker? text = none ∧ ∃ l ts,
      skeletonRoot (parse (scan text).1 config.sourceUrl config.preserveWhitespace).roots =
          .node l ts ∧
        l.content.isElement = true ∧
        (Tree.node l ts).EveryLabel (CompileContext.NamesApart ⟨config, (scan text).2⟩) ∧
        b = CompileContext.viewWith ⟨config, (scan text).2⟩ (scan text).2
          (targetClass.getD config.defaultClass) (CompileContext.elementLabel ⟨config, (scan text).2⟩ l)
          (CompileContext.partsAll ⟨config, (scan text).2⟩ [] ts) ∧
        ∀ e ∈ log, e.message ∈ compileMessages ∨ e.message = "compiled shadow view" := by
  rw [Blueprint.compile] at h
  cases hmarker : firstMarker? text with
  | some marker =>
    rw [hmarker] at h
    cases (Prod.mk.inj h).1
  | none =>
    rw [hmarker] at h
    dsimp only at h
    refine ⟨rfl, ?_⟩
    split at h
    · have hevery : ∀ t ∈ (parse (scan text).1 config.sourceUrl config.preserveWhitespace).roots,
          t.EveryLabel (CompileContext.NamesApart ⟨config, (scan text).2⟩) := fun t ht =>
        (parse_every _ _ _ t ht).imp fun l hl =>
          hl.attributes.namesApart (scan_nameList text) (scanned_scan hmarker)
      obtain ⟨l, ts, hroot, helement, hlabels⟩ := skeletonRoot_eq hevery List.nodup_nil
      obtain ⟨s, hid, hheld⟩ :=
        exists_skeleton_parse (scan text).1 config.sourceUrl config.preserveWhitespace
      have hall : CompileContext.WalksAll ⟨config, (scan text).2⟩ ts := by
        cases hlabels with
        | node _ below => exact CompileContext.walksAll ts below
      rw [hroot] at hheld
      obtain ⟨log', hlog', hcompile⟩ := hall.compileTree hheld
        (soundView_of_everyLabel helement hlabels) (scan text).2
        (targetClass.getD config.defaultClass) []
      have hsize := hheld.holds.length_ids_le hheld.nodup
      rw [hid, hcompile _ (by omega)] at h
      obtain ⟨hb, hlog⟩ := Prod.mk.inj h
      refine ⟨l, ts, hroot, helement, hlabels, (Except.ok.inj hb).symm, fun e he => ?_⟩
      rw [← hlog] at he
      rcases List.mem_append.mp he with he | he
      · exact .inl ((hlog' e he).resolve_left List.not_mem_nil)
      · rw [List.mem_singleton.mp he]
        exact .inr rfl
    · cases (Prod.mk.inj h).1

/-- What a template compiles to is a view. -/
theorem exists_isView {config : Config} {text : String} {targetClass : Option String} {b : Blueprint}
    {log : Log} (h : Blueprint.compile config text targetClass = (.ok b, log)) :
    ∃ l ps, IsView ⟨config, (scan text).2⟩ l ps b := by
  obtain ⟨-, l, ts, -, helement, hnames, rfl, -⟩ := compile_eq_ok h
  have hsound := soundView_of_everyLabel helement hnames
  exact ⟨_, _, isView_viewWith _ _ hsound (scan_nameList text).nodup⟩

end LiveMarkup
