import LiveMarkup.Proofs.Blueprint.Encoding
import LiveMarkup.Proofs.Document.Splicing

namespace LiveMarkup

open CompileContext Site

/-- The events of compiling are about marks and placeholders in wrong places, and about regions. -/
def compileMessages : List String :=
  ["placeholder in attribute name position is not bound",
    "iteration marker does not name a property", "duplicate iteration region ignored",
    "iteration marker on the template root is ignored", "compiled iteration region"]

def LogsTo (log log' : Log) : Prop := ∀ e ∈ log', e ∈ log ∨ e.message ∈ compileMessages

theorem LogsTo.refl (log : Log) : LogsTo log log := fun _ he => .inl he

theorem LogsTo.trans {log log₁ log₂ : Log} (h : LogsTo log log₁) (h' : LogsTo log₁ log₂) :
    LogsTo log log₂ := fun e he => (h' e he).elim (h e) .inr

theorem LogsTo.say (log : Log) {e : Event} (he : e.message ∈ compileMessages) :
    LogsTo log (log ++ [e]) := fun e' he' =>
  (List.mem_append.mp he').imp_right fun hlast => by rwa [List.mem_singleton.mp hlast]

namespace TreeWalker

structure Relabels (w w' : TreeWalker) (id : NodeId) (l : Label) (ps : List (String × BoundLocation)) :
    Prop where
  document : w.document.Relabels w'.document id l
  bindings : w'.bindings = w.bindings.bindAll ps
  regions : w'.regions = w.regions
  log : LogsTo w.log w'.log

variable {w w₁ w₂ : TreeWalker} {id : NodeId} {l l' : Label} {ps qs : List (String × BoundLocation)}

theorem Relabels.refl (h : w.document.label? id = some l) : w.Relabels w id l [] :=
  ⟨.refl h, rfl, rfl, .refl _⟩

theorem Relabels.trans (h : w.Relabels w₁ id l ps) (h' : w₁.Relabels w₂ id l' qs) :
    w.Relabels w₂ id l' (ps ++ qs) :=
  ⟨h.document.trans h'.document, by rw [h'.bindings, h.bindings, Bindings.bindAll_append],
    h'.regions.trans h.regions, h.log.trans h'.log⟩

theorem Relabels.label? (h : w.Relabels w₁ id l' ps) (hl : w.document.label? id = some l) :
    w₁.document.label? id = some l' := by
  obtain ⟨n, hn, -⟩ := Option.map_eq_some_iff.mp hl
  exact h.document.label? (Document.contains_iff.mpr ⟨n, hn⟩)

theorem relabels_modifyAttributeAt {d : Document} {a : String × String}
    {done rest : List (String × String)} (hl : d.label? id = some l)
    (ha : l.attributes.entries = done ++ a :: rest) (f : String × String → String × String) :
    d.Relabels (d.modifyAttributeAt id done.length f).1 id
      { l with attributes := ⟨done ++ f a :: rest⟩ } := by
  have hattributes : (d.attributes id).entries = done ++ a :: rest := by
    rw [Document.attributes, hl, ← ha]
    rfl
  have hmodify : l.attributes.entries.modify done.length f = done ++ f a :: rest := by
    rw [ha, List.modify_eq_take_drop]
    simp
  have hlabel := Document.relabels_modifyLabel
    (fun l => { l with attributes := ⟨l.attributes.entries.modify done.length f⟩ }) hl
  rw [Document.modifyAttributeAt, hattributes, if_pos (by simp), ← hmodify]
  exact hlabel

theorem foldl_attributes (pick : String × String → Bool) (value : String × String → String)
    (step : TreeWalker → Nat × String → TreeWalker) (out : String × String → String × String)
    (found : (String × String) × Nat → List (String × BoundLocation)) (id : NodeId)
    (hit : ∀ (w : TreeWalker) (l : Label) (a : String × String) (done rest : List (String × String)),
      pick a = true → w.document.label? id = some l → l.attributes.entries = done ++ a :: rest →
      w.Relabels (step w (done.length, value a)) id { l with attributes := ⟨done ++ out a :: rest⟩ }
        (found (a, done.length)))
    (miss : ∀ a i, pick a = false → out a = a ∧ found (a, i) = [])
    (rest done : List (String × String)) (w : TreeWalker) (l : Label)
    (hl : w.document.label? id = some l) (ha : l.attributes.entries = done ++ rest) :
    w.Relabels (((rest.zipIdx done.length).filterMap fun a =>
        if pick a.1 then some (a.2, value a.1) else none).foldl step w) id
      { l with attributes := ⟨done ++ rest.map out⟩ } ((rest.zipIdx done.length).flatMap found) := by
  induction rest generalizing done w l with
  | nil =>
    obtain ⟨content, ⟨entries⟩, control⟩ := l
    obtain rfl : entries = done := by simpa using ha
    simpa using Relabels.refl hl
  | cons a rest ih =>
    rw [List.zipIdx_cons, List.flatMap_cons]
    cases hpick : pick a with
    | true =>
      have hone := hit w l a done rest hpick hl ha
      have hall := ih (done ++ [out a]) _ _ (hone.label? hl) (by simp)
      simp only [List.length_append, List.length_singleton, List.append_assoc,
        List.singleton_append] at hall
      rw [List.filterMap_cons_some (by rw [if_pos hpick]), List.foldl_cons, List.map_cons]
      exact hone.trans hall
    | false =>
      obtain ⟨hout, hfound⟩ := miss a done.length hpick
      have hall := ih (done ++ [a]) w l hl (by rw [ha, List.append_assoc, List.singleton_append])
      simp only [List.length_append, List.length_singleton, List.append_assoc,
        List.singleton_append] at hall
      rw [List.filterMap_cons_none (by rw [hpick]; rfl), hfound, List.map_cons, hout]
      exact hall

theorem foldl_bind (names : List String) (t : Place) (e : Expression) (w : TreeWalker) :
    (names.foldl (fun w name => w.bind name t e) w).document = w.document ∧
      (names.foldl (fun w name => w.bind name t e) w).bindings =
        w.bindings.bindAll (names.map fun name => (name, ⟨t, e⟩)) ∧
      (names.foldl (fun w name => w.bind name t e) w).regions = w.regions ∧
      (names.foldl (fun w name => w.bind name t e) w).log = w.log := by
  induction names generalizing w with
  | nil => exact ⟨rfl, rfl, rfl, rfl⟩
  | cons name names ih => exact ih (w.bind name t e)

end TreeWalker

namespace CompileContext

variable (ctx : CompileContext) {w : TreeWalker} {id : NodeId} {l : Label}

theorem restoreAttributeNames_relabels (hl : w.document.label? id = some l) :
    w.Relabels (ctx.restoreAttributeNames id w) id
      { l with attributes := ⟨l.attributes.entries.map fun a => (restore ctx.names a.1, a.2)⟩ } [] := by
  have hloop := TreeWalker.foldl_attributes (fun a => hasMarkers a.1)
    (fun a => restore ctx.names a.1) (restoreAttributeName id)
    (fun a => (restore ctx.names a.1, a.2)) (fun _ => []) id
    (fun w l a done rest _ hl ha => ?_) (fun a _ hno => ?_) l.attributes.entries [] w l hl rfl
  · have hattributes : w.document.attributes id = l.attributes := by
      rw [Document.attributes, hl]
      rfl
    have hnone : (l.attributes.entries.zipIdx.flatMap fun _ => ([] : List (String × BoundLocation))) =
        [] := List.flatMap_eq_nil_iff.mpr fun _ _ => rfl
    rw [restoreAttributeNames, hattributes]
    simpa [hnone] using hloop
  · exact ⟨TreeWalker.relabels_modifyAttributeAt hl ha _, rfl, rfl,
      .say _ (by simp [compileMessages, Event.warn])⟩
  · exact ⟨by rw [restore_of_not_hasMarkers hno], rfl⟩

theorem bindAttributes_relabels (hl : w.document.label? id = some l) :
    w.Relabels (ctx.bindAttributes id w) id l.blanked
      (attributePlaces ctx id l.attributes.entries) := by
  have hloop := TreeWalker.foldl_attributes (fun a => hasMarkers a.2) (fun a => a.2)
    (ctx.bindAttribute id) (fun a => (a.1, if hasMarkers a.2 then "" else a.2))
    (fun a => if hasMarkers a.1.2 then
      (ctx.namesIn a.1.2).map fun name => (name, ⟨.attribute id a.2, .ofText ctx.names a.1.2⟩)
      else []) id
    (fun w l a done rest hyes hl ha => ?_) (fun a _ hno => ?_) l.attributes.entries [] w l hl rfl
  · have hattributes : w.document.attributes id = l.attributes := by
      rw [Document.attributes, hl]
      rfl
    rw [bindAttributes, hattributes]
    exact hloop
  · obtain ⟨hdocument, hbindings, hregions, hlog⟩ := TreeWalker.foldl_bind (ctx.namesIn a.2)
      (.attribute id done.length) (.ofText ctx.names a.2) w
    rw [bindAttribute, if_pos hyes, if_pos hyes]
    refine ⟨?_, hbindings, hregions, by rw [hlog]; exact .refl _⟩
    dsimp only
    rw [hdocument]
    exact TreeWalker.relabels_modifyAttributeAt hl ha _
  · simp [hno]

def unmarked (l : Label) : Label :=
  { l with attributes := l.attributes.erase ctx.config.iterationAttribute }

theorem unmarked_of_get?_eq_none (h : l.attributes.get? ctx.config.iterationAttribute = none) :
    ctx.unmarked l = l := by
  have herase : l.attributes.erase ctx.config.iterationAttribute = l.attributes := by
    rw [Table.get?, Option.map_eq_none_iff, List.find?_eq_none] at h
    rw [Table.erase, List.eraseP_of_forall_not h]
  rw [unmarked, herase]

/-- An element has one mark at most, so nothing is left of it. -/
theorem unmarked_unmarked (h : l.attributes.names.Nodup) :
    ctx.unmarked (ctx.unmarked l) = ctx.unmarked l := by
  refine ctx.unmarked_of_get?_eq_none ?_
  obtain ⟨content, ⟨entries⟩, control⟩ := l
  rw [unmarked, Table.get?_eq_none_iff]
  simp only [Table.names, Table.erase] at h ⊢
  induction entries with
  | nil => simp
  | cons e entries ih =>
    rw [List.map_cons, List.nodup_cons] at h
    by_cases he : e.1 = ctx.config.iterationAttribute
    · rw [List.eraseP_cons_of_pos (by simpa using he), ← he]
      exact h.1
    · rw [List.eraseP_cons_of_neg (by simpa using he), List.map_cons, List.mem_cons, not_or]
      exact ⟨Ne.symm he, ih h.2⟩

theorem elementLabel_unmarked (h : l.attributes.names.Nodup) :
    ctx.elementLabel (ctx.unmarked l) = ctx.elementLabel l := by
  have hboth := ctx.unmarked_unmarked h
  rw [unmarked, Label.mk.injEq] at hboth
  rw [elementLabel, hboth.2.1]
  rfl

theorem takeMark_relabels (root : NodeId) (hl : w.document.label? id = some l) :
    (ctx.takeMark root id w).1 = (if id = root then none else ctx.mark? l) ∧
      w.Relabels (ctx.takeMark root id w).2 id (ctx.unmarked l) [] := by
  have hattribute : w.document.attribute? id ctx.config.iterationAttribute =
      l.attributes.get? ctx.config.iterationAttribute := by
    rw [Document.attribute?, Document.attributes, hl]
    rfl
  rw [takeMark, Document.removeAttribute, hattribute, mark?]
  cases hmark : l.attributes.get? ctx.config.iterationAttribute with
  | none =>
    refine ⟨by simp, ?_⟩
    rw [ctx.unmarked_of_get?_eq_none hmark]
    exact .refl hl
  | some value =>
    have hdocument := Document.relabels_modifyLabel
      (fun l => { l with attributes := l.attributes.erase ctx.config.iterationAttribute }) hl
    dsimp only [Option.bind_some]
    split
    · exact ⟨rfl, hdocument, rfl, rfl, .say _ (by simp [compileMessages, Event.warn])⟩
    · cases ctx.regionName? value with
      | none => exact ⟨rfl, hdocument, rfl, rfl, .say _ (by simp [compileMessages, Event.warn])⟩
      | some name => exact ⟨rfl, hdocument, rfl, rfl, .refl _⟩

/-- An element that stays has its attribute names restored and its attributes bound. -/
theorem open_relabels (root : NodeId) (hl : w.document.label? id = some l) :
    w.Relabels (ctx.bindAttributes id (ctx.restoreAttributeNames id (ctx.takeMark root id w).2)) id
      (ctx.elementLabel l).blanked
      (attributePlaces ctx id (ctx.elementLabel l).attributes.entries) := by
  have hmark := (ctx.takeMark_relabels root hl).2
  have hnames := ctx.restoreAttributeNames_relabels (hmark.label? hl)
  have hvalues := ctx.bindAttributes_relabels ((hmark.trans hnames).label? hl)
  exact (hmark.trans hnames).trans hvalues

end CompileContext

end LiveMarkup
