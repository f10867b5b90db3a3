import LiveMarkup.Proofs.Blueprint.Closure
import LiveMarkup.Proofs.Markup.Outline
import LiveMarkup.Proofs.Placeholder.PutBack

namespace LiveMarkup

open CompileContext Site

def Part.isText : Part → Bool
  | .fixed t => t.isText
  | .slot _ => true
  | .element l _ => l.content.isText
  | .region _ _ _ => false

/-- The skeleton can be said, with anything in the regions. -/
inductive Part.IsSayable : Part → Prop where
  | fixed {t : Tree} (sayable : t.IsSayable) : Part.IsSayable (.fixed t)
  | slot {name : String} : Part.IsSayable (.slot name)
  | element {l : Label} {ps : List Part} (label : l.IsSayable)
      (admitted : ∀ p ∈ ps, l.admits p.isText = true) (below : ∀ p ∈ ps, Part.IsSayable p) :
      Part.IsSayable (.element l ps)
  | region {name : String} {l : Label} {ps : List Part} (label : l.IsSayable)
      (admitted : ∀ p ∈ ps, l.admits p.isText = true) (below : ∀ p ∈ ps, Part.IsSayable p) :
      Part.IsSayable (.region name l ps)

structure SayableView (l : Label) (ps : List Part) : Prop where
  label : l.IsSayable
  admitted : ∀ p ∈ ps, l.admits p.isText = true
  below : ∀ p ∈ ps, p.IsSayable

theorem Label.IsSayable.blanked {l : Label} (h : l.IsSayable) : l.blanked.IsSayable := by
  have hnames : l.blanked.attributes.names = l.attributes.names := by
    rw [Label.blanked, Table.names, Table.names, List.map_map]
    rfl
  unfold Label.IsSayable at h ⊢
  rw [Label.blanked] at hnames ⊢
  dsimp only at hnames ⊢
  cases hc : l.content with
  | element name =>
    rw [hc] at h
    exact ⟨h.1, by rw [hnames]; exact h.2.nodup, by rw [hnames]; exact h.2.named⟩
  | text value => trivial
  | comment value => rwa [hc] at h

theorem treesAll_eq (ps : List Part) : treesAll ps = ps.flatMap trees := by
  induction ps with
  | nil => rfl
  | cons p ps ih => rw [treesAll, ih, List.flatMap_cons]

theorem isSayable_node {l : Label} {ps : List Part} (label : l.IsSayable)
    (admitted : ∀ p ∈ ps, l.admits p.isText = true)
    (below : ∀ p ∈ ps, ∀ t ∈ trees p, t.IsSayable ∧ t.isText = p.isText) :
    (Tree.node l.blanked (treesAll ps)).IsSayable := by
  rw [treesAll_eq]
  refine .node label.blanked (fun t ht => ?_) fun t ht => ?_
  · obtain ⟨p, hp, ht⟩ := List.mem_flatMap.mp ht
    rw [(below p hp t ht).2]
    exact admitted p hp
  · obtain ⟨p, hp, ht⟩ := List.mem_flatMap.mp ht
    exact (below p hp t ht).1

theorem Part.IsSayable.trees {p : Part} (h : p.IsSayable) :
    ∀ t ∈ trees p, t.IsSayable ∧ t.isText = p.isText := by
  induction h with
  | fixed sayable =>
    intro t ht
    obtain rfl := List.mem_singleton.mp ht
    exact ⟨sayable, rfl⟩
  | slot =>
    intro t ht
    obtain rfl := List.mem_singleton.mp ht
    exact ⟨.node trivial (by simp) (by simp), rfl⟩
  | element label admitted below ih =>
    intro t ht
    obtain rfl := List.mem_singleton.mp ht
    exact ⟨isSayable_node label admitted ih, rfl⟩
  | region label admitted below ih => exact fun t ht => by cases ht

theorem SayableView.isSayable {l : Label} {ps : List Part} (h : SayableView l ps) :
    (Tree.node l.blanked (treesAll ps)).IsSayable :=
  isSayable_node h.label h.admitted fun p hp => (h.below p hp).trees

namespace Site

mutual

theorem anchored_sayable {x : NodeId} : ∀ s : Site, s.part.IsSayable → ∀ a ∈ anchored x s,
    SayableView a.label a.parts ∧ (a.anchor = x ∧ s.part.isText = false ∨
      ∃ l, (a.anchor, .attributes l) ∈ marks s ∧ l.admits false = true)
  | .fixed _ _, _ => fun _ ha => by cases ha
  | .slot _ _, _ => fun _ ha => by cases ha
  | .element id l ss, h => fun a ha => by
    cases h with
    | element label admitted below =>
      obtain ⟨hview, hanchor⟩ := anchoredAll_sayable ss below a ha
      refine ⟨hview, .inr ?_⟩
      rw [marks]
      rcases hanchor with ⟨hid, p, hp, htext⟩ | ⟨l', hmark, hadmits⟩
      · exact ⟨l, by rw [hid]; exact List.mem_cons_self, htext ▸ admitted p hp⟩
      · exact ⟨l', List.mem_cons_of_mem _ hmark, hadmits⟩
  | .region name l ps, h => fun a ha => by
    obtain rfl := List.mem_singleton.mp ha
    cases h with
    | region label admitted below => exact ⟨⟨label, admitted, below⟩, .inl ⟨rfl, rfl⟩⟩

theorem anchoredAll_sayable {x : NodeId} : ∀ ss : List Site, (∀ p ∈ parts ss, p.IsSayable) →
    ∀ a ∈ anchoredAll x ss, SayableView a.label a.parts ∧
      (a.anchor = x ∧ (∃ p ∈ parts ss, p.isText = false) ∨
        ∃ l, (a.anchor, .attributes l) ∈ marksAll ss ∧ l.admits false = true)
  | [], _ => fun _ ha => by cases ha
  | s :: ss, h => fun a ha => by
    rw [anchoredAll, List.mem_append] at ha
    rw [parts] at h ⊢
    rw [marksAll]
    rcases ha with ha | ha
    · obtain ⟨hview, hanchor⟩ := anchored_sayable s (h _ List.mem_cons_self) a ha
      refine ⟨hview, hanchor.imp (fun ⟨hid, htext⟩ => ⟨hid, _, List.mem_cons_self, htext⟩) ?_⟩
      exact fun ⟨l, hmark, hadmits⟩ => ⟨l, List.mem_append_left _ hmark, hadmits⟩
    · obtain ⟨hview, hanchor⟩ :=
        anchoredAll_sayable ss (fun p hp => h p (List.mem_cons_of_mem _ hp)) a ha
      refine ⟨hview, hanchor.imp (fun ⟨hid, p, hp, htext⟩ => ?_) fun ⟨l, hmark, hadmits⟩ => ?_⟩
      · exact ⟨hid, p, List.mem_cons_of_mem _ hp, htext⟩
      · exact ⟨l, List.mem_append_right _ hmark, hadmits⟩

end

end Site

theorem SayableView.anchored {id : NodeId} {l : Label} {ss : List Site}
    (h : SayableView l (Site.parts ss)) {a : Anchored} (ha : a ∈ anchoredAll id ss) :
    SayableView a.label a.parts ∧ ∃ l', (a.anchor, .attributes l') ∈
      Document.Exhibits.allMarks id l ss ∧ l'.admits false = true := by
  obtain ⟨hview, hanchor⟩ := anchoredAll_sayable ss h.below a ha
  refine ⟨hview, ?_⟩
  rw [Document.Exhibits.allMarks]
  rcases hanchor with ⟨hid, p, hp, htext⟩ | ⟨l', hmark, hadmits⟩
  · exact ⟨l, by rw [hid]; exact List.mem_cons_self, htext ▸ h.admitted p hp⟩
  · exact ⟨l', List.mem_cons_of_mem _ hmark, hadmits⟩

/-! ### The parts of a tree -/

namespace CompileContext

variable {ctx : CompileContext}

structure Restores (ctx : CompileContext) (l : Label) : Prop where
  apart : ctx.NamesApart l
  names : ∀ n ∈ l.attributes.names, Marked ctx.names n.toList
  comment : ∀ value, l.content = .comment value → Marked ctx.names value.toList

theorem Restores.of_saidIn {text : String} {l : Label} (h : l.SaidIn (unifyLineEnds text.toList))
    (hn : NameList ctx.names) (hs : Scanned ctx.names text.toList) : ctx.Restores l where
  apart := h.attributes.namesApart hn hs
  names n hmem := hs.marked.unifyLineEnds.of_infix (h.attributes.parts n hmem).1
  comment value hc := hs.marked.unifyLineEnds.of_infix (h.comment value hc)

theorem elementLabel_isSayable (hn : NameList ctx.names) {l : Label} (hl : l.IsSayable)
    (hr : ctx.Restores l) {name : String} (hc : l.content = .element name) :
    (ctx.elementLabel l).IsSayable := by
  have hnodup := (ctx.elementLabel_isSound hc hr.apart).nodup
  unfold Label.IsSayable at hl ⊢
  rw [hc] at hl
  rw [elementLabel] at hnodup ⊢
  rw [hc]
  refine ⟨hl.1, hnodup, fun n hmem => ?_⟩
  rw [Table.names, List.map_map] at hmem
  obtain ⟨a, ha, rfl⟩ := List.mem_map.mp hmem
  have hold : a.1 ∈ l.attributes.names := List.mem_map_of_mem (List.mem_of_mem_eraseP ha)
  exact isAttributeName_restore hn (hr.names _ hold) (hl.2.named _ hold)

theorem commentLabel_isSayable (hn : NameList ctx.names) {l : Label} (hl : l.IsSayable)
    (hr : ctx.Restores l) {value : String} (hc : l.content = .comment value) :
    (ctx.commentLabel l value).IsSayable := by
  rw [commentLabel]
  split
  · unfold Label.IsSayable at hl ⊢
    rw [hc] at hl
    exact isComment_restore hn (hr.comment value hc) hl
  · exact hl

theorem sayableView_elementLabel {l : Label} {ts : List Tree} {ps : List Part}
    (hl : (ctx.elementLabel l).IsSayable) (hadmits : ∀ t ∈ ts, l.admits t.isText = true)
    (hps : ∀ p ∈ ps, ∃ t ∈ ts, p.IsSayable ∧ (t.isText = true → p.isText = true)) :
    SayableView (ctx.elementLabel l) ps := by
  refine ⟨hl, fun p hp => ?_, fun p hp => ?_⟩
  · obtain ⟨t, ht, -, htext⟩ := hps p hp
    exact Label.admits_of_admits (l := ctx.elementLabel l) (hadmits t ht) htext
  · obtain ⟨t, -, hp, -⟩ := hps p hp
    exact hp

theorem segmentPart?_isSayable {g : Segment} {p : Part} (hg : ctx.segmentPart? g = some p) :
    p.IsSayable ∧ p.isText = true := by
  cases g with
  | literal text =>
    obtain rfl := Option.some.inj hg
    exact ⟨.fixed (.node trivial (by simp) (by simp)), rfl⟩
  | marker i =>
    obtain ⟨name, -, rfl⟩ := Option.map_eq_some_iff.mp hg
    exact ⟨.slot, rfl⟩

mutual

theorem parts_isSayable (hn : NameList ctx.names) (seen : List String) :
    ∀ t : Tree, t.IsSayable → t.EveryLabel ctx.Restores →
      ∀ p ∈ ctx.parts seen t, p.IsSayable ∧ (t.isText = true → p.isText = true)
  | .node l ts, hsayable, hevery => by
    obtain ⟨hl, hadmits, hbelow⟩ : l.IsSayable ∧ (∀ t ∈ ts, l.admits t.isText = true) ∧
        ∀ t ∈ ts, t.IsSayable := by
      cases hsayable with
      | node label admitted below => exact ⟨label, admitted, below⟩
    obtain ⟨hrestores, hlabels⟩ : ctx.Restores l ∧ ∀ t ∈ ts, t.EveryLabel ctx.Restores := by
      cases hevery with
      | node label below => exact ⟨label, below⟩
    intro p hp
    rw [parts] at hp
    cases hc : l.content with
    | text value =>
      rw [hc] at hp
      dsimp only at hp
      split at hp
      · obtain ⟨g, -, hg⟩ := List.mem_filterMap.mp hp
        exact (segmentPart?_isSayable hg).imp_right fun htext _ => htext
      · obtain rfl := List.mem_singleton.mp hp
        exact ⟨.fixed hsayable, fun h => h⟩
    | comment value =>
      rw [hc] at hp
      obtain rfl := List.mem_singleton.mp hp
      have hnone : ts = [] := List.eq_nil_iff_forall_not_mem.mpr fun t ht => by
        have hno := hadmits t ht
        simp [Label.admits, hc] at hno
      subst hnone
      refine ⟨.fixed (.node (commentLabel_isSayable hn hl hrestores hc) (by simp) (by simp)),
        fun h => ?_⟩
      simp [Tree.isText, Tree.label, hc, Content.isText] at h
    | element name =>
      rw [hc] at hp
      dsimp only at hp
      have hlabel := elementLabel_isSayable hn hl hrestores hc
      have hother : (Tree.node l ts).isText = false := by
        simp [Tree.isText, Tree.label, hc, Content.isText]
      have hview : ∀ seen, SayableView (ctx.elementLabel l) (ctx.partsAll seen ts) := fun seen =>
        sayableView_elementLabel hlabel hadmits (partsAll_isSayable hn seen ts hbelow hlabels)
      rw [hother]
      refine ⟨?_, fun h => by cases h⟩
      split at hp
      · obtain rfl := List.mem_singleton.mp hp
        exact .element hlabel (hview seen).admitted (hview seen).below
      · split at hp
        · cases hp
        · obtain rfl := List.mem_singleton.mp hp
          exact .region hlabel (hview []).admitted (hview []).below

theorem partsAll_isSayable (hn : NameList ctx.names) (seen : List String) :
    ∀ ts : List Tree, (∀ t ∈ ts, t.IsSayable) → (∀ t ∈ ts, t.EveryLabel ctx.Restores) →
      ∀ p ∈ ctx.partsAll seen ts, ∃ t ∈ ts, p.IsSayable ∧ (t.isText = true → p.isText = true)
  | [], _, _ => fun p hp => by cases hp
  | t :: ts, hsayable, hevery => by
    intro p hp
    rw [partsAll, List.mem_append] at hp
    rcases hp with hp | hp
    · exact ⟨t, List.mem_cons_self, parts_isSayable hn seen t (hsayable t List.mem_cons_self)
        (hevery t List.mem_cons_self) p hp⟩
    · obtain ⟨u, hu, hp⟩ := partsAll_isSayable hn _ ts
        (fun u hu => hsayable u (List.mem_cons_of_mem _ hu))
        (fun u hu => hevery u (List.mem_cons_of_mem _ hu)) p hp
      exact ⟨u, List.mem_cons_of_mem _ hu, hp⟩

end

end CompileContext

/-! ### Whole templates -/

theorem skeletonRoot_isSayable {roots : List Tree} (h : ∀ t ∈ roots, t.IsSayable) :
    (skeletonRoot roots).IsSayable := by
  have hdiv : ∀ ts : List Tree, (∀ t ∈ ts, t.IsSayable) →
      (Tree.node (.element "div") ts).IsSayable := by
    have hname : IsTagName "div" := ⟨⟨'d', ['i', 'v'], rfl, rfl⟩, List.all_eq_true.mp (by decide)⟩
    have hnone : AreAttributes .empty := ⟨List.nodup_nil, List.forall_mem_nil _⟩
    refine fun ts hts => .node ⟨hname, hnone⟩ (fun t _ => ?_) hts
    cases t.isText <;> decide +kernel
  unfold skeletonRoot
  split
  · split
    · exact h _ List.mem_cons_self
    · exact hdiv _ h
  · exact hdiv _ h

theorem errors_of_compile {config : Config} {text : String} {targetClass : Option String}
    {b : Blueprint} {log : Log} (h : Blueprint.compile config text targetClass = (.ok b, log)) :
    (parse (scan text).1 config.sourceUrl config.preserveWhitespace).errors = [] := by
  rw [Blueprint.compile] at h
  split at h
  · cases (Prod.mk.inj h).1
  · dsimp only at h
    split at h
    · rename_i hclean
      exact List.isEmpty_iff.mp hclean
    · cases (Prod.mk.inj h).1

/-- What a template compiles to is a view that markup can say. -/
theorem exists_sayableView {config : Config} {text : String} {targetClass : Option String}
    {b : Blueprint} {log : Log} (h : Blueprint.compile config text targetClass = (.ok b, log)) :
    ∃ l ps, IsView ⟨config, (scan text).2⟩ l ps b ∧ SayableView l ps := by
  obtain ⟨hmarker, l, ts, hroot, helement, hnames, rfl, -⟩ := compile_eq_ok h
  have hn := scan_nameList text
  have hsound := soundView_of_everyLabel helement hnames
  refine ⟨_, _, isView_viewWith _ _ hsound hn.nodup, ?_⟩
  have hsayable := skeletonRoot_isSayable fun t ht => (parse_fits (errors_of_compile h) t ht).isSayable
  have hevery : ∀ t ∈ (parse (scan text).1 config.sourceUrl config.preserveWhitespace).roots,
      t.EveryLabel (CompileContext.Restores ⟨config, (scan text).2⟩) := fun t ht =>
    (parse_every _ _ _ t ht).imp fun l hl => .of_saidIn hl hn (scanned_scan hmarker)
  have hnew : CompileContext.Restores ⟨config, (scan text).2⟩ (.element "div") :=
    { apart := List.nodup_nil, names := List.forall_mem_nil _, comment := fun _ hc => by cases hc }
  obtain ⟨l', ts', hroot', -, hlabels⟩ := skeletonRoot_eq hevery hnew
  rw [hroot] at hroot' hsayable
  obtain ⟨rfl, rfl⟩ := Tree.node.inj hroot'
  cases hsayable with
  | node label admitted below =>
    cases hlabels with
    | node restores labels =>
      cases hc : l.content with
      | text value => rw [hc] at helement; cases helement
      | comment value => rw [hc] at helement; cases helement
      | element name =>
        exact sayableView_elementLabel (elementLabel_isSayable hn label restores hc) admitted
          (partsAll_isSayable hn [] ts below labels)

end LiveMarkup
