import LiveMarkup.Proofs.Picture.FixedParts

namespace LiveMarkup

open CompileContext Document Site

theorem Json.eq_of_resolve?_string {s path : String} {v : Json}
    (h : (Json.string s).resolve? path = some v) : v = .string s := by
  unfold resolve? at h
  split at h
  · exact (Option.some.inj h).symm
  · cases hparts : dotParts path.toList with
    | nil =>
      rw [hparts] at h
      exact (Option.some.inj h).symm
    | cons part parts =>
      rw [hparts] at h
      cases h

theorem Json.ne_array_of_mem_assignmentsOf {as : List (String × Accessor Instance)} {name s : String}
    {e : String × Json} (h : e ∈ Instance.assignmentsOf as name (.string s)) (items : List Json) :
    e.2 ≠ .array items := by
  rcases List.mem_cons.mp h with rfl | h
  · exact Json.noConfusion
  · obtain ⟨key, -, hmap⟩ := List.mem_filterMap.mp h
    obtain ⟨path, -, rfl⟩ := Option.map_eq_some_iff.mp hmap
    cases hvalue : (Json.string s).resolve? path with
    | none => exact Json.noConfusion
    | some v =>
      rw [Json.eq_of_resolve?_string hvalue]
      exact Json.noConfusion

/-- Whether the values of a property are written in place. -/
def Accessor.isBound {ι : Type} : Accessor ι → Bool
  | .bound _ => true
  | .iterating _ _ _ => false

theorem Accessor.exists_of_isBound {ι : Type} {a : Accessor ι} (h : a.isBound = true) :
    ∃ ls, a = .bound ls := by
  cases a with
  | bound ls => exact ⟨ls, rfl⟩
  | iterating a view children => cases h

theorem Document.Exhibits.isSayable {d : Document} {id : NodeId} {l : Label} {ss : List Site}
    (he : d.Exhibits id l ss) (hs : SayableView l (Site.parts ss)) :
    (d.treeAt (.node id (shapesAll ss))).IsSayable := by
  rw [treeAt_node, labelAt, he.label, he.trees]
  exact hs.isSayable

namespace Instance

section View

variable {ctx : CompileContext} {b : Blueprint} {l : Label} {ss : List Site} {id : NodeId}
  {d : Document} {registry : Registry}

theorem changeOf_suits (grow : Blueprint → Json → Option Tree) (hv : IsView ctx l (Site.parts ss) b)
    (hs : SayableView l (Site.parts ss)) (he : d.Exhibits id l ss)
    (grows : ∀ e ∈ b.regions.entries, ∀ l' ps, IsView ctx l' ps e.2.view → SayableView l' ps →
      ∀ item t, grow e.2.view item = some t → t.IsSayable)
    (name : String) (v : Json) : (changeOf grow (accessorsAt ctx b id l ss) name v).Suits d := by
  have hmarks := he.label_of_mem hv.sound
  rw [changeOf]
  cases hget : Table.get? ⟨accessorsAt ctx b id l ss⟩ name with
  | none => exact fun r hr => by cases hr
  | some ac =>
    have hmem := (Table.get?_eq_some_iff (nodup_names_accessorsAt hv id)).mp hget
    cases ac with
    | bound ls =>
      intro r hr x hx
      rw [bound_mem_accessorsAt hmem] at hr
      rcases mem_places.mp (mem_locationsOf.mp hr) with ⟨y, hmark, rfl⟩ | ⟨y, l', -, a, k, -, -, -, rfl⟩
      · obtain rfl := Place.node.inj hx
        rw [labelAt, (hmarks _ hmark).1]
        rfl
      · cases hx
    | iterating a view cs =>
      obtain ⟨g, hg, -, rfl, rfl, -⟩ := iterating_mem_accessorsAt hmem
      obtain ⟨hinside, l', hmark, hadmits⟩ := hs.anchored hg
      obtain ⟨e, hentry, hview⟩ := exists_region_of_anchored hv he hg
      have hsound := isView_view ctx (anchoredAll_sound ss hv.sound.parts g hg)
      dsimp only
      cases v with
      | array items =>
        dsimp only
        cases hall : items.mapM (grow (ctx.view g.label g.parts)) with
        | none => trivial
        | some ts =>
          intro t ht
          obtain ⟨item, hitem⟩ := exists_of_mem_mapM hall ht
          refine ⟨?_, ?_⟩
          · rw [labelAt, (hmarks _ hmark).1]
            exact Label.admits_of_admits (l := l'.blanked) hadmits (fun h => by cases h)
          · rw [← hview] at hitem hsound
            exact grows e hentry _ _ hsound hinside item t hitem
      | _ => trivial

theorem PictureReached.follows {as : List (String × Accessor Instance)} {own : Shape} {d' : Document}
    {i : Instance} (suits : ∀ name v, (changeOf (alone registry) as name v).Suits d)
    (h : PictureReached registry as own (.ofCopy d) d' i) :
    ∃ p, PictureOf .empty as own d' i p ∧ p.Follows d own := by
  obtain ⟨-, values, hpicture⟩ := h
  refine ⟨_, hpicture, Change.follows_applyAll (fun c hc => ?_) (Picture.follows_ofCopy d own)⟩
  obtain ⟨e, -, rfl⟩ := List.mem_map.mp hc
  exact suits e.1 e.2

theorem alone_isSayable (registry : Registry) {ps : List Part} (hb : b.IsCompiled)
    (hv : IsView ctx l ps b) (hs : SayableView l ps) {item : Json} {t : Tree}
    (h : alone registry b item = some t) : t.IsSayable := by
  induction hdepth : b.depth using Nat.strong_induction_on generalizing b l ps item t with
  | _ depth ih =>
    subst hdepth
    obtain ⟨depth, hdepth⟩ := b.exists_depth_eq
    unfold alone at h
    rcases hbuild : build registry ⟨.empty, []⟩ b item with ⟨s, e | i⟩
    · rw [hbuild] at h
      cases h
    · rw [hbuild] at h
      dsimp only at h
      rw [build, hdepth, buildWithin] at hbuild
      have hinside : ∀ e ∈ b.regions.entries, e.2.view.IsCompiled ∧ e.2.view.depth < b.depth :=
        fun _ he => ⟨hb.region he, Blueprint.depth_view_lt he⟩
      obtain ⟨id, ss, d, rfl, hexhibits, hreached⟩ := exists_pictureReached_build hv (fun e he =>
        buildWithin_grows registry (hinside e he).1 (by have := (hinside e he).2; omega)) hbuild
      obtain ⟨p, hpicture, hfollows⟩ := hreached.follows fun name v =>
        changeOf_suits _ hv hs hexhibits (fun e he l' ps hv' hs' item t ht =>
          ih _ (hinside e he).2 (hinside e he).1 hv' hs' ht rfl) name v
      rw [hpicture.tree?] at h
      obtain rfl := Option.some.inj h
      exact hfollows.isSayable (hexhibits.isSayable hs)

def reread (url : String) (q : Stage × Instance) : Parsed := parse (q.2.render q.1.document) url true

/-- A raw element of the instance has the start of its own end tag in its text. -/
def breaksOut (q : Stage × Instance) : Bool := (q.1.document.tree? q.2.root).any Tree.breaksOut

theorem PictureOf.outline_reread {as : List (String × Accessor Instance)} {q : Stage × Instance}
    {p : Picture} (h : PictureOf .empty as (.node id (shapesAll ss)) q.1.document q.2 p)
    (hv : IsView ctx l (Site.parts ss) b) (hs : SayableView l (Site.parts ss)) (he : d.Exhibits id l ss)
    (hp : p.Follows d (.node id (shapesAll ss))) (hbreaks : breaksOut q = false) (url : String) :
    (reread url q).errors = [] ∧
      Tree.outlineAll (reread url q).roots = (p.treeOf (.node id (shapesAll ss))).outline := by
  have htext : (p.treeOf (.node id (shapesAll ss))).isText = false := by
    have helement := hv.sound.label.element
    rw [Picture.isText_treeOf, Label.isText_of_fixedPart_eq (hp.labels _ (Shape.id_mem_ids _)), Shape.id,
      labelAt, he.label]
    change l.content.isText = false
    cases hc : l.content <;> rw [hc] at helement <;> first | rfl | cases helement
  rw [breaksOut, h.tree?, Option.any_some] at hbreaks
  rw [reread, h.render]
  exact outline_parse_render url (hp.isSayable (he.isSayable hs)) hbreaks htext

end View

def setText (q : Stage × Instance) (name v : String) : Stage × Instance :=
  Call.apply q (.set name (.string v))

theorem changeOf_ne_hang {grow : Blueprint → Json → Option Tree}
    {as : List (String × Accessor Instance)} {name : String} {v : Json}
    (h : ∀ items, v ≠ .array items) (n : String) (w : Json) (anchor : NodeId) (ts : List Tree) :
    changeOf grow as name v ≠ .hang n w anchor ts := by
  rw [changeOf]
  split
  · exact Change.noConfusion
  · exact Change.noConfusion
  · split
    · exact absurd rfl (h _)
    · exact Change.noConfusion

variable {text : String} {config : Config} {registry : Registry} {className : Option String}
  {data : Option Json} {s : Stage} {i : Instance}

/-- After any calls, one outline is read from the instance whichever property is set to whichever
string. -/
theorem exists_outline_setText
    (h : (Template.new text config registry).instantiate className data = .ok (s, i))
    (calls : List Call) : ∃ os : List Outline, ∀ name v url : String,
      breaksOut (setText (Call.run (s, i) calls) name v) = false →
        (reread url (setText (Call.run (s, i) calls) name v)).errors = [] ∧
          Tree.outlineAll (reread url (setText (Call.run (s, i) calls) name v)).roots = os := by
  obtain ⟨b, log, hcompile, hruns⟩ := pictureReached_run h
  obtain ⟨l, ps, hv, hs⟩ := exists_sayableView hcompile
  obtain ⟨id, ss, d, rfl, hexhibits, hcompiled, hall⟩ := hruns l ps hv
  have hb : b.IsCompiled := ⟨config, text, none, b, log, hcompile, .self⟩
  have hsuits := changeOf_suits (alone registry) hv hs hexhibits
    fun ⟨_, _⟩ he l' ps hv' hs' item t => alone_isSayable registry (hb.region he) hv' hs'
  have hregistry := (hall calls).1
  obtain ⟨p, hpicture, hfollows⟩ := (hall calls).follows hsuits
  refine ⟨(p.treeOf (.node id (shapesAll ss))).outline, fun name v url hbreaks => ?_⟩
  have hset := hpicture.set hcompiled name (.string v)
  rw [hregistry] at hset
  -- a string is no array, so no region gets other trees
  have hchanges : ∀ c ∈ changesOf (alone registry) (accessorsAt ⟨config, (scan text).2⟩ b id l ss)
      (assignmentsOf (accessorsAt ⟨config, (scan text).2⟩ b id l ss) name (.string v)),
      c.Suits d ∧ ∀ name v anchor ts, c ≠ .hang name v anchor ts := by
    intro c hc
    obtain ⟨e, he, rfl⟩ := exists_of_mem_changesOf hc
    exact ⟨hsuits e.1 e.2, changeOf_ne_hang (Json.ne_array_of_mem_assignmentsOf he)⟩
  have hkept := Change.follows_applyAll (fun c hc => (hchanges c hc).1) hfollows
  obtain ⟨hclean, hread⟩ := hset.outline_reread hv hs hexhibits hkept hbreaks url
  exact ⟨hclean, hread.trans (Change.outline_applyAll hchanges hfollows)⟩

/-- Whatever two strings a property is set to, what is read from the markups has no error and the same
elements, attribute names and comments, unless a raw element has its own end tag in its text. -/
theorem outline_reread_set
    (h : (Template.new text config registry).instantiate className data = .ok (s, i))
    (calls : List Call) {s' : Stage} {j : Instance} (hrun : Call.run (s, i) calls = (s', j))
    (name v w url : String) (hv : breaksOut (setText (s', j) name v) = false)
    (hw : breaksOut (setText (s', j) name w) = false) :
    (reread url (setText (s', j) name v)).errors = [] ∧
      (reread url (setText (s', j) name w)).errors = [] ∧
      Tree.outlineAll (reread url (setText (s', j) name v)).roots =
        Tree.outlineAll (reread url (setText (s', j) name w)).roots := by
  obtain ⟨os, hall⟩ := exists_outline_setText h calls
  rw [hrun] at hall
  obtain ⟨hclean, hread⟩ := hall name v url hv
  obtain ⟨hclean', hread'⟩ := hall name w url hw
  exact ⟨hclean, hclean', hread.trans hread'.symm⟩

def sheetText : String :=
  "<section title=\"$\x7bx\x7d\">$\x7bx\x7d<style>$\x7bx\x7d</style><!--n-->" ++
    "<p data-repeat=\"rows\">$\x7bname\x7d</p></section>"

def sheetData : Json := .object [("rows", .array [.object [("name", .string "</p>")]])]

def hostileText : String := "\"></section></script><b></b><script>"

theorem outline_reread_set_sheet :
    ∃ q, (Template.new sheetText .standard .standard).instantiate none none = .ok q ∧
      let read (v : String) :=
        reread "sheet.html" (setText (Call.run q [.configure sheetData]) "x" v)
      (read "a").errors = [] ∧ (read hostileText).errors = [] ∧
        Tree.outlineAll (read "a").roots = Tree.outlineAll (read hostileText).roots := by
  obtain ⟨q, hq, hcheck⟩ := exists_of_check (.new sheetText .standard .standard) none none (fun q =>
    let q := Call.run q [.configure sheetData]
    decide (breaksOut (setText q "x" "a") = false ∧ breaksOut (setText q "x" hostileText) = false))
    (by decide +kernel)
  obtain ⟨hv, hw⟩ := of_decide_eq_true hcheck
  exact ⟨q, hq, outline_reread_set (s := q.1) (i := q.2) hq [.configure sheetData] rfl "x" "a"
    hostileText "sheet.html" hv hw⟩

/-- A string can end a script, and then there are other elements. -/
theorem outline_reread_script :
    ∃ q, (Template.new "<script>$\x7bx\x7d</script>" .standard .standard).instantiate none none =
        .ok q ∧
      (∃ ls, q.2.accessors.get? "x" = some (.bound ls)) ∧
      Tree.outlineAll (reread "script.html" (setText q "x" "a")).roots ≠
        Tree.outlineAll (reread "script.html" (setText q "x" hostileText)).roots := by
  let count (q : Stage × Instance) (v : String) :=
    (Tree.outlineAll (reread "script.html" (setText q "x" v)).roots).length
  obtain ⟨q, hq, hcheck⟩ := exists_of_check (.new "<script>$\x7bx\x7d</script>" .standard .standard)
    none none (fun q => (q.2.accessors.get? "x").any Accessor.isBound &&
      decide (count q "a" = 1 ∧ count q hostileText = 3)) (by decide +kernel)
  obtain ⟨hbound, hcounts⟩ := Bool.and_eq_true_iff.mp hcheck
  obtain ⟨hone, hthree⟩ := of_decide_eq_true hcounts
  refine ⟨q, hq, ?_, fun he => ?_⟩
  · obtain ⟨a, hget, ha⟩ := (Option.any_eq_true _ _).mp hbound
    obtain ⟨ls, rfl⟩ := Accessor.exists_of_isBound ha
    exact ⟨ls, hget⟩
  · have hlength : count q "a" = count q hostileText := congrArg List.length he
    rw [hone, hthree] at hlength
    cases hlength

end Instance

end LiveMarkup
