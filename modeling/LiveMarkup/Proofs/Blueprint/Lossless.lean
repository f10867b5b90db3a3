import LiveMarkup.Proofs.Blueprint.Indexing

namespace LiveMarkup

open CompileContext Site

/-- The walk of the tree `t` has bound each occurrence of a name once, in document order, and found
each region, and all of this is in the view `v` with the path of its place. -/
structure TreeWalker.Retained (ctx : CompileContext) (w : TreeWalker) (root : NodeId) (t : Tree)
    (v : Blueprint) : Prop where
  bindings : List.Forall₂ (EncodesTo w.document root w.names) w.pending (ctx.viewOccurrences t)
  records : ∀ n, v.recordsOf n = ((ctx.viewOccurrences t).filter (·.1 == n)).map (·.2)
  anchors : List.Forall₂ (fun g r => w.encodeRegion? root g = some r) w.regions.entries
    v.regions.entries
  regions : ∀ n, n ∈ w.regions.names ↔ n ∈ ctx.regionNamesAll t.children
  skeleton : w.document.tree? root = some v.skeleton

namespace CompileContext

def unmarkedTree (ctx : CompileContext) : Tree → Tree
  | .node l ts => .node (ctx.unmarked l) ts

/-- Wherever the tree `t` stands as a whole, with the mark at its root or without it, compiling gives
`v` and retains what the walk has found. -/
def Lossless (ctx : CompileContext) (t : Tree) (v : Blueprint) : Prop :=
  ∃ names : List String, ∀ (d : Document) (s : Shape) (log : Log) (steps : Nat),
    d.HoldsTree s t ∨ d.HoldsTree s (ctx.unmarkedTree t) → 2 * d.slots.size ≤ steps →
      (ctx.compileTree steps d s.id names v.targetClass log).1 = v ∧
      (ctx.walk steps s.id [.element s.id] (.start d names log)).Retained ctx s.id t v

variable {ctx : CompileContext} {l : Label} {ts : List Tree}

theorem retained {w : TreeWalker} {root : NodeId} {names : List String} {ss : List Site}
    (hn : ctx.names.Nodup) (h : Finished ctx w root names (ctx.elementLabel l) ss)
    (hparts : Site.parts ss = ctx.partsAll [] ts)
    (hs : SoundView (ctx.elementLabel l) (ctx.partsAll [] ts)) (hnames : names.Nodup)
    (targetClass : String) :
    w.Retained ctx root (.node l ts)
      (ctx.viewWith names targetClass (ctx.elementLabel l) (ctx.partsAll [] ts)) := by
  have hview := isView_viewWith ctx targetClass hs hnames
  have hof : ViewOf ctx (.node l ts) (ctx.viewWith names targetClass (ctx.elementLabel l)
      (ctx.partsAll [] ts)) := ⟨l, ts, rfl, hview⟩
  have hbindings := (h.encodesAll (hparts ▸ hs)).pending
  have hanchors := h.anchors
  have htree := h.tree?_eq
  rw [hparts] at hbindings hanchors htree
  rw [viewRecords_eq hn] at hbindings
  refine ⟨hbindings, hof.recordsOf hn, by rwa [hview.regions], fun n => ?_, htree⟩
  have hregions := hof.mem_regions n
  rw [hview.names_regions, ← hparts, ← names_anchoredAll root] at hregions
  rw [← hregions, Table.names, h.regions, List.map_map]
  rfl

theorem lossless_viewWith (hn : ctx.names.Nodup) (hl : l.content.isElement = true)
    (hlabels : (Tree.node l ts).EveryLabel ctx.NamesApart) {names : List String} (hnames : names.Nodup)
    (targetClass : String) :
    ctx.Lossless (.node l ts)
      (ctx.viewWith names targetClass (ctx.elementLabel l) (ctx.partsAll [] ts)) := by
  have hsound := soundView_of_everyLabel hl hlabels
  have hall : ctx.WalksAll ts ∧ l.attributes.names.Nodup := by
    cases hlabels with
    | node label below => exact ⟨walksAll ts below, label.of_map _⟩
  refine ⟨names, fun d s log steps hd hsteps => ?_⟩
  obtain ⟨l', hlabel, hheld⟩ : ∃ l', ctx.elementLabel l' = ctx.elementLabel l ∧
      d.HoldsTree s (.node l' ts) :=
    hd.elim (fun h => ⟨l, rfl, h⟩) fun h => ⟨_, ctx.elementLabel_unmarked hall.2, h⟩
  have hsize := hheld.holds.length_ids_le hheld.nodup
  obtain ⟨w, ss, hparts, hfinished, -, hwalk⟩ := hall.1.finished hheld names log
  obtain ⟨log', -, hcompile⟩ := hall.1.compileTree hheld (by rwa [hlabel]) names targetClass log
  rw [hlabel] at hfinished hcompile
  rw [viewWith, hcompile steps (by omega), hwalk steps (by omega)]
  exact ⟨rfl, retained hn hfinished hparts hsound hnames targetClass⟩

mutual

theorem everyLabel_regionElements {P : Label → Prop} : ∀ t : Tree, t.EveryLabel P →
    ∀ e ∈ ctx.regionElements t, e.2.EveryLabel P ∧ e.2.label.content.isElement = true
  | .node l ts, h => by
    rw [regionElements]
    cases hc : l.content with
    | text value => simp
    | comment value => simp
    | element tag =>
      dsimp only
      cases hm : ctx.mark? l with
      | none =>
        cases h with
        | node _ below => exact everyLabel_regionElementsAll ts below
      | some name =>
        intro e he
        rw [List.mem_singleton.mp he]
        exact ⟨h, by rw [Tree.label, hc]; rfl⟩

theorem everyLabel_regionElementsAll {P : Label → Prop} : ∀ ts : List Tree,
    (∀ t ∈ ts, t.EveryLabel P) →
    ∀ e ∈ ctx.regionElementsAll ts, e.2.EveryLabel P ∧ e.2.label.content.isElement = true
  | [], _ => by simp [regionElementsAll]
  | t :: ts, h => by
    intro e he
    rw [regionElementsAll, List.mem_append] at he
    rcases he with he | he
    · exact everyLabel_regionElements t (h t List.mem_cons_self) e he
    · exact everyLabel_regionElementsAll ts (fun u hu => h u (List.mem_cons_of_mem _ hu)) e he

end

/-- The view is compiled from the tree, with properties of its own to start from. -/
def Compiled (ctx : CompileContext) (t : Tree) (v : Blueprint) : Prop :=
  ∃ l ts names targetClass, t = .node l ts ∧ l.content.isElement = true ∧
    t.EveryLabel ctx.NamesApart ∧ names.Nodup ∧
    v = ctx.viewWith names targetClass (ctx.elementLabel l) (ctx.partsAll [] ts)

theorem Compiled.lossless {t : Tree} {v : Blueprint} (h : ctx.Compiled t v) (hn : ctx.names.Nodup) :
    ctx.Lossless t v := by
  obtain ⟨l, ts, names, targetClass, rfl, hl, hlabels, hnames, rfl⟩ := h
  exact lossless_viewWith hn hl hlabels hnames targetClass

theorem Compiled.region {t t' : Tree} {v : Blueprint} (h : ctx.Compiled t v) {name : String}
    {r : Region Blueprint} (hr : (name, r) ∈ v.regions.entries)
    (ht : (ctx.regionElementsAll t.children).lookup name = some t') : ctx.Compiled t' r.view := by
  obtain ⟨l, ts, names, targetClass, rfl, hl, hlabels, hnames, rfl⟩ := h
  have hsound := soundView_of_everyLabel hl hlabels
  rw [(isView_viewWith ctx targetClass hsound hnames).regions] at hr
  obtain ⟨l', ts', hfound, -, hview⟩ := regionsAll_first .root [] [] ts hsound.parts _ hr
  obtain rfl : t' = .node l' ts' := Option.some.inj (ht.symm.trans hfound)
  have hbelow : ∀ t ∈ ts, t.EveryLabel ctx.NamesApart := by
    cases hlabels with
    | node _ below => exact below
  have hmem : (name, Tree.node l' ts') ∈ ctx.regionElementsAll ts := by
    obtain ⟨before, after, heq, -⟩ := List.lookup_eq_some_iff.mp ht
    rw [Tree.children] at heq
    simp [heq]
  obtain ⟨hlabels', hl'⟩ := everyLabel_regionElementsAll ts hbelow _ hmem
  exact ⟨l', ts', [], ctx.config.defaultClass, rfl, hl', hlabels', List.nodup_nil, hview⟩

theorem IsPart.compiled {root t : Tree} {b v : Blueprint} (h : ctx.IsPart root b t v)
    (hroot : ctx.Compiled root b) : ctx.Compiled t v := by
  induction h with
  | whole => exact hroot
  | region _ entry first ih => exact ih.region entry first

end CompileContext

theorem compiled_parsedTemplate {config : Config} {text : String} {targetClass : Option String}
    {b : Blueprint} {log : Log} (h : Blueprint.compile config text targetClass = (.ok b, log)) :
    CompileContext.Compiled ⟨config, (scan text).2⟩ (parsedTemplate config text) b := by
  obtain ⟨-, l, ts, hroot, helement, hnames, rfl, -⟩ := compile_eq_ok h
  refine ⟨l, ts, _, _, hroot, helement, ?_, (scan_nameList text).nodup, rfl⟩
  rw [parsedTemplate, hroot]
  exact hnames

end LiveMarkup
