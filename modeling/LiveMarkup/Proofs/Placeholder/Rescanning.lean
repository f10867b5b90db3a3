import LiveMarkup.Proofs.Blueprint.Compiling
import LiveMarkup.Proofs.Placeholder.Naming
import LiveMarkup.Proofs.Placeholder.Numbering

/-!
# Scanning what was put back

A scan forgets the blanks just inside the braces of a placeholder and nothing else. So when the
placeholders have been put back for the markers, the text is the one that was scanned without these
blanks, and a scan of it finds the same placeholders: what follows a character up to the next closing
brace is the same in both texts unless a placeholder starts there.
-/

namespace LiveMarkup

namespace Placeholder

def toWord : Piece (List Char) → Piece (List Char)
  | .plain c => .plain c
  | .found name => .found (name ++ ['\x7d'])

def trim (cs : List Char) : List Char := ((pattern.split cs).map toWord).flatMap Piece.chars

/-- The second text is the first one without the blanks just inside the braces of its placeholders. -/
inductive Trims : List Char → List Char → Prop where
  | nil : Trims [] []
  | plain {c : Char} {cs out : List Char} (unread : read? (c :: cs) = none) (rest : Trims cs out) :
    Trims (c :: cs) (c :: out)
  | placeholder {lead name trail cs out : List Char} (lead_blank : ∀ b ∈ lead, isBlank b = true)
      (trail_blank : ∀ b ∈ trail, isBlank b = true) (named : isName name = true)
      (rest : Trims cs out) :
    Trims ('$' :: '\x7b' :: (lead ++ name ++ trail ++ '\x7d' :: cs))
      ('$' :: '\x7b' :: (name ++ '\x7d' :: out))

theorem trim_of_read? {cs name rest : List Char} (h : read? cs = some (name, rest)) :
    trim cs = '$' :: '\x7b' :: (name ++ '\x7d' :: trim rest) := by
  rw [trim, split_of_read? h, List.map_cons, List.flatMap_cons, toWord, Piece.chars,
    List.cons_append, List.cons_append, List.append_assoc, List.singleton_append, trim]

theorem trim_cons_of_none {c : Char} {cs : List Char} (h : read? (c :: cs) = none) :
    trim (c :: cs) = c :: trim cs := by
  rw [trim, split_cons_of_none h, List.map_cons, List.flatMap_cons, toWord, Piece.chars,
    List.singleton_append, trim]

theorem trim_nil : trim [] = [] := by
  rw [trim, Pattern.split_nil, List.map_nil, List.flatMap_nil]

theorem trims_trim (cs : List Char) : Trims cs (trim cs) := by
  induction cs using pattern.textInduction with
  | nil =>
    rw [trim_nil]
    exact .nil
  | plain c cs hnone ih =>
    rw [trim_cons_of_none hnone]
    exact .plain hnone ih
  | found cs name rest hr ih =>
    have hread : read? cs = some (name, rest) := hr
    obtain ⟨lead, trail, hlead, htrail, hname, -, rfl⟩ := read?_eq_some_iff.mp hread
    rw [trim_of_read? hread]
    simpa using Trims.placeholder hlead htrail hname ih

theorem eq_plain_of_toWord {m : List Char} {ps back : List (Piece (List Char))}
    (h : ps.map toWord = m.map .plain ++ back) : ∃ after, ps = m.map .plain ++ after := by
  induction m generalizing ps with
  | nil => exact ⟨ps, rfl⟩
  | cons x m ih =>
    obtain ⟨p, ps, rfl, hp, hrest⟩ := List.map_eq_cons_iff.mp h
    obtain ⟨after, rfl⟩ := ih hrest
    cases p with
    | plain y => exact ⟨after, by rw [Piece.plain.inj hp]; rfl⟩
    | found name => cases hp

/-- No placeholder starts at a character once the blanks behind it are gone: up to the brace that
would close it there are only characters, and these were there before. -/
theorem read?_trim_of_none {c : Char} {cs : List Char} (h : read? (c :: cs) = none) :
    read? (c :: trim cs) = none := by
  by_contra hsome
  obtain ⟨⟨name, rest⟩, hr⟩ := Option.ne_none_iff_exists'.mp hsome
  obtain ⟨⟨body, heq, hbrace, hread⟩, -⟩ := read?_eq_some hr
  obtain ⟨back, hback⟩ := eq_plain_append_of_match heq hbrace
  obtain ⟨hc, hback⟩ := List.cons.inj hback
  obtain ⟨after, hafter⟩ := eq_plain_of_toWord (m := '\x7b' :: (body ++ ['\x7d'])) hback
  obtain ⟨more, rfl, -⟩ := Pattern.split_eq_plain_append hafter
  rw [Piece.plain.inj hc, List.cons_append, List.append_assoc, List.singleton_append, hread] at h
  cases h

theorem split_trim (cs : List Char) : pattern.split (trim cs) = pattern.split cs := by
  induction cs using pattern.textInduction with
  | nil => rw [trim_nil]
  | plain c cs hnone ih =>
    rw [trim_cons_of_none hnone, split_cons_of_none (read?_trim_of_none hnone), ih,
      split_cons_of_none hnone]
  | found cs name rest hr ih =>
    rw [trim_of_read? hr, split_of_read? ((read?_eq_some hr).2 (trim rest)), ih, split_of_read? hr]

end Placeholder

theorem restorePiece_markPiece {text : String} (hsize : text.length ≤ 2 ^ 64)
    {p : Piece (List Char)} (hp : p ∈ Placeholder.pattern.split text.toList) :
    restorePiece (scan text).2 (markPiece (scan text).2 p) = (Placeholder.toWord p).chars := by
  cases p with
  | plain c => rfl
  | found name =>
    have hmem : String.ofList name ∈ (scan text).2 := mem_names_of_mem_split hp
    have hlength : (scan text).2.length ≤ 2 ^ 64 :=
      (length_scanInto_le [] text).trans (by simpa using hsize)
    rw [markPiece, restorePiece, ofDigits_markPiece hmem hlength, restoreSegment,
      List.getElem?_idxOf hmem]
    simp [Placeholder.spell, Placeholder.toWord, Piece.chars]

theorem toList_restore_scan {text : String} (hplain : firstMarker? text = none)
    (hsize : text.length ≤ 2 ^ 64) :
    (restore (scan text).2 (scan text).1).toList = Placeholder.trim text.toList := by
  have hsplit : Marker.pattern.split (scan text).1.toList =
      (Placeholder.pattern.split text.toList).map (markPiece (scan text).2) :=
    split_scanInto List.nodup_nil hplain
  rw [toList_restore, hsplit, List.flatMap_map, Placeholder.trim, List.flatMap_map]
  exact List.flatMap_congr fun p hp => restorePiece_markPiece hsize hp

theorem scan_congr {text text' : String}
    (h : Placeholder.pattern.split text.toList = Placeholder.pattern.split text'.toList) :
    scan text = scan text' := by
  rw [scan, scan, scanInto, scanInto, h]

namespace CompileContext

variable (ctx : CompileContext) {w : TreeWalker} {id : NodeId} {l : Label}

theorem names_bindAttributes_restoreAttributeNames (hl : w.document.label? id = some l) :
    ((ctx.bindAttributes id (ctx.restoreAttributeNames id w)).document.attributes id).names =
      l.attributes.names.map (restore ctx.names) := by
  have hnames := ctx.restoreAttributeNames_relabels hl
  have hopen := hnames.trans (ctx.bindAttributes_relabels (hnames.label? hl))
  rw [Document.attributes, hopen.label? hl]
  simp [Label.blanked, Table.names, Function.comp_def]

theorem text?_restoreComment (hl : w.document.label? id = some l) {value : String}
    (hc : l.content = .comment value) :
    (ctx.restoreComment id w).document.text? id = some (restore ctx.names value) := by
  have htext : w.document.text? id = some value := by
    rw [Document.text?, hl, Option.bind_some, hc]
    rfl
  obtain ⟨n, hn, -⟩ := Option.map_eq_some_iff.mp hl
  have hrelabel := Document.relabels_modifyLabel
    (fun l => { l with content := l.content.withValue (restore ctx.names value) }) hl
  rw [restoreComment, htext]
  dsimp only
  by_cases hmarkers : hasMarkers value = true
  · rw [if_pos hmarkers, Document.setText, htext]
    dsimp only
    rw [Document.text?, hrelabel.label? (Document.contains_iff.mpr ⟨n, hn⟩), Option.bind_some, hc]
    rfl
  · rw [if_neg hmarkers, htext, restore_of_not_hasMarkers (by simpa using hmarkers)]

end CompileContext

/-- No text of a machine reaches the bound on its size. -/
theorem restore_scan {text : String} (hplain : firstMarker? text = none)
    (hsize : text.length ≤ 2 ^ 64) :
    Placeholder.Trims text.toList (restore (scan text).2 (scan text).1).toList ∧
      scan (restore (scan text).2 (scan text).1) = scan text ∧
      ∀ config : Config,
        ∀ t ∈ (parse (scan text).1 config.sourceUrl config.preserveWhitespace).roots,
          t.EveryLabel fun l =>
            (∀ m ∈ l.attributes.names, ∀ n ∈ l.attributes.names, m ≠ n →
              restore (scan text).2 m ≠ restore (scan text).2 n) ∧
            ∀ (w : TreeWalker) (id : NodeId), w.document.label? id = some l →
              ((CompileContext.bindAttributes ⟨config, (scan text).2⟩ id
                (CompileContext.restoreAttributeNames ⟨config, (scan text).2⟩ id w)).document.attributes
                  id).names = l.attributes.names.map (restore (scan text).2) ∧
              ∀ value, l.content = .comment value →
                (CompileContext.restoreComment ⟨config, (scan text).2⟩ id w).document.text? id =
                  some (restore (scan text).2 value) := by
  have hrestored := toList_restore_scan hplain hsize
  refine ⟨?_, ?_, fun config t ht => ?_⟩
  · rw [hrestored]
    exact Placeholder.trims_trim text.toList
  · exact scan_congr (by rw [hrestored, Placeholder.split_trim])
  · refine (parse_every _ _ _ t ht).imp fun l hl => ⟨?_, fun w id hid => ⟨?_, fun value hc => ?_⟩⟩
    · have hapart : CompileContext.NamesApart ⟨config, (scan text).2⟩ l :=
        hl.attributes.namesApart (scan_nameList text) (scanned_scan hplain)
      exact fun m hm n hn hne he => hne (List.inj_on_of_nodup_map hapart hm hn he)
    · exact CompileContext.names_bindAttributes_restoreAttributeNames _ hid
    · exact CompileContext.text?_restoreComment _ hid hc

def unfinishedText : String := "<p $\x7b a \x7d $\x7ba.b \x7d>$\x7b $$\x7b $x \x7d</p>"

theorem restore_scan_unfinishedText :
    firstMarker? unfinishedText = none ∧ unfinishedText.length ≤ 2 ^ 64 ∧
      Placeholder.Trims unfinishedText.toList
        "<p $\x7ba\x7d $\x7ba.b\x7d>$\x7b $$\x7b$x\x7d</p>".toList ∧
      scan "<p $\x7ba\x7d $\x7ba.b\x7d>$\x7b $$\x7b$x\x7d</p>" = scan unfinishedText ∧
      (scan unfinishedText).2 = ["a", "a.b", "$x"] ∧
      (parse (scan unfinishedText).1 "" true).roots.map
        (fun t => t.label.attributes.names.map (restore (scan unfinishedText).2)) =
          [["$\x7ba\x7d", "$\x7ba.b\x7d"]] := by
  have hplain : firstMarker? unfinishedText = none := by decide +kernel
  have hsize : unfinishedText.length ≤ 2 ^ 64 := by decide +kernel
  obtain ⟨htrims, hscan, -⟩ := restore_scan hplain hsize
  have hrestored : restore (scan unfinishedText).2 (scan unfinishedText).1 =
      "<p $\x7ba\x7d $\x7ba.b\x7d>$\x7b $$\x7b$x\x7d</p>" := by decide +kernel
  rw [hrestored] at htrims hscan
  exact ⟨hplain, hsize, htrims, hscan, by decide +kernel, by decide +kernel⟩

end LiveMarkup
