import LiveMarkup.Proofs.Store.Refusing

namespace LiveMarkup

open Document

namespace Instance

variable {s : Stage} {i j k : Instance} {names names' : List String} {b : Blueprint}

structure Equipped (names : List String) (i j : Instance) : Prop where
  root : j.root = i.root
  className : j.className = i.className
  component : j.component = i.component
  values : j.values = i.values
  registry : j.registry = i.registry
  others : ∀ n ∉ names, j.accessors.get? n = i.accessors.get? n

namespace Equipped

theorem refl (i : Instance) : Equipped [] i i := ⟨rfl, rfl, rfl, rfl, rfl, fun _ _ => rfl⟩

theorem trans (h : Equipped names i j) (h' : Equipped names' j k) :
    Equipped (names ++ names') i k where
  root := h'.root.trans h.root
  className := h'.className.trans h.className
  component := h'.component.trans h.component
  values := h'.values.trans h.values
  registry := h'.registry.trans h.registry
  others n hn := by
    rw [List.mem_append, not_or] at hn
    exact (h'.others n hn.2).trans (h.others n hn.1)

theorem heldValues_eq (h : Equipped names i j) (b : Blueprint) : j.heldValues b = i.heldValues b := by
  unfold Instance.heldValues Instance.get?
  rw [h.values]

end Equipped

theorem equipped_defineProperty (s : Stage) (i : Instance) (name : String) (a : Accessor Instance) :
    Equipped [name] i (i.defineProperty s name a).2 := by
  rw [(i.defineProperty_eq s name a).2]
  exact ⟨rfl, rfl, rfl, rfl, rfl, fun n hn => Table.get?_put_of_ne _ _ (by simpa using hn)⟩

theorem equipped_bindExposure (s : Stage) (i : Instance) (root : NodeId) (e : Exposure) :
    Equipped [e.name] i (i.bindExposure s root e).2.1 := by
  cases e with
  | leaf name records =>
    rw [bindExposure]
    exact equipped_defineProperty _ i name _
  | iterating name region =>
    rw [bindExposure]
    split
    · exact equipped_defineProperty _ i name _
    · exact ⟨rfl, rfl, rfl, rfl, rfl, fun _ _ => rfl⟩

theorem equipped_bindExposures (s : Stage) (i : Instance) (root : NodeId) (es : List Exposure) :
    Equipped (es.map Exposure.name) i (i.bindExposures s root es).2.1 := by
  induction es generalizing s i with
  | nil => exact .refl i
  | cons e es ih => exact (equipped_bindExposure s i root e).trans (ih _ _)

theorem equipped_install (s : Stage) (i : Instance) (b : Blueprint) :
    Equipped (b.exposures.map Exposure.name) i (i.install s b).2 :=
  equipped_bindExposures _ i _ b.exposures

theorem mem_heldValues {p : String × Json} (h : p ∈ i.heldValues b) :
    p.1 ∈ b.exposures.map Exposure.name ∧ i.get? p.1 = some p.2 := by
  rw [heldValues_eq] at h
  obtain ⟨e, he, hvalue⟩ := List.mem_filterMap.mp h
  obtain ⟨v, hv, rfl⟩ := Option.map_eq_some_iff.mp hvalue
  exact ⟨List.mem_map_of_mem he, hv⟩

/-- An extension leaves the values as they are, and the properties that the blueprint does not have. -/
theorem extend_keeps (s : Stage) (i : Instance) (b : Blueprint) :
    (∀ n ∉ b.exposures.map Exposure.name,
      (i.extend s b).1.self.accessors.get? n = i.accessors.get? n) ∧
    ∀ n, (i.extend s b).1.self.get? n = i.get? n := by
  have hequipped := equipped_install s i b
  have hconfined := confined_assignAllWith (build (i.install s b).2.registry) (i.install s b).1
    (i.install s b).2 ((i.install s b).2.heldValues b)
  rw [hequipped.heldValues_eq] at hconfined
  have hsame : ∀ n, (i.install s b).2.get? n = i.get? n := fun n => by
    rw [get?, get?, hequipped.values]
  rw [i.extend_eq s b, hequipped.heldValues_eq]
  refine ⟨fun n hn => ?_, fun n => ?_⟩
  · rw [hconfined.others n, hequipped.others n hn]
    intro hmem
    obtain ⟨p, hp, rfl⟩ := List.mem_map.mp hmem
    exact hn (mem_heldValues hp).1
  · rw [← hsame n]
    refine hconfined.get?_of_held (fun p hp => ?_) n
    rw [hsame]
    exact (mem_heldValues hp).2

/-- What an extension leaves that fails after the template was compiled. The properties are bound to
the copy, and what is written there are values that were there before. -/
structure HalfExtended (s : Stage) (i : Instance) (b : Blueprint) (e : EngineError) (o : Outcome) :
    Prop where
  cut : ∃ before failed after, i.heldValues b = before ++ failed :: after ∧
    CutOff (i.install s b).1 (i.install s b).2 before failed e o
  equipped : Equipped (b.exposures.map Exposure.name) i (i.install s b).2
  values : ∀ n, o.self.get? n = i.get? n
  others : ∀ n ∉ b.exposures.map Exposure.name, o.self.accessors.get? n = i.accessors.get? n

theorem halfExtended {e : EngineError} (h : (i.extend s b).1.error = some e) :
    i.HalfExtended s b e (i.extend s b).1 := by
  obtain ⟨hothers, hvalues⟩ := extend_keeps s i b
  have hequipped := equipped_install s i b
  refine ⟨?_, hequipped, hvalues, hothers⟩
  rw [i.extend_eq s b] at h ⊢
  obtain ⟨before, failed, after, hsplit, hcut⟩ := exists_cutOff rfl h
  rw [hequipped.heldValues_eq] at hsplit
  exact ⟨before, failed, after, hsplit, hcut⟩

end Instance

namespace Session

variable {s s' : Session} {a : Address} {n : Nat} {e : EngineError}

/-- What a session comes to when an extension of an instance by a template fails. -/
inductive ExtensionFailed (s : Session) (a : Address) (n : Nat) (e : EngineError) (s' : Session) :
    Prop where
  /-- The template does not compile, and no instance has changed, nor a document. -/
  | uncompiled {t : Template} (template : s.templates[n]? = some t)
      (failure : t.blueprint.2.1 = .error e) (documents : s'.documents = s.documents)
      (residents : s'.residents = s.residents)
  /-- The instance is half extended, and nothing else has changed. -/
  | halfway {t : Template} {b : Blueprint} {r : Resident} {i : Instance} {d : Document} {o : Outcome}
      (template : s.templates[n]? = some t) (compiled : t.blueprint.2.1 = .ok b)
      (located : s.locate? a = some (r, i, d)) (half : i.HalfExtended ⟨d, t.blueprint.2.2⟩ b e o)
      (documents : s'.documents = s.documents.set r.document o.stage.document)
      (residents : s'.residents =
        s.residents.set a.index { r with self := r.self.replaceAt o.self a.steps })

theorem extend_failed (h : (s.step (.extend a n)).2.1 = .failed e) :
    s.ExtensionFailed a n e (s.step (.extend a n)).1 := by
  rw [step, actWith] at h ⊢
  cases hlocate : s.locate? a with
  | none =>
    rw [hlocate] at h
    cases h
  | some located =>
    obtain ⟨r, i, d⟩ := located
    rw [hlocate] at h
    dsimp only at h ⊢
    rw [blueprint?] at h ⊢
    cases htemplate : s.templates[n]? with
    | none =>
      rw [htemplate] at h
      cases h
    | some t =>
      rw [htemplate, Option.map_some] at h
      rw [Option.map_some]
      rcases hblueprint : t.blueprint with ⟨t', e' | b, log⟩
      · rw [hblueprint] at h
        cases h
        exact .uncompiled htemplate (by rw [hblueprint]) rfl rfl
      · rw [hblueprint] at h
        have hlocate' : ({ s with templates := s.templates.set n t' } : Session).locate? a =
            some (r, i, d) := hlocate
        dsimp only at h ⊢
        rw [act, hlocate'] at h ⊢
        dsimp only at h ⊢
        cases herror : (i.extend ⟨d, log⟩ b).1.error with
        | none =>
          rw [herror] at h
          cases h
        | some e' =>
          rw [herror] at h
          obtain rfl := Reply.failed.inj h
          refine .halfway htemplate (by rw [hblueprint]) hlocate ?_ rfl rfl
          rw [hblueprint]
          exact Instance.halfExtended herror

def rowsHeld : Session :=
  (start [.new "<ul><li data-repeat=\"rows\">x</li></ul>" .standard .standard]).run
    [.host "<section></section>" "Card" Store.cardsOnly,
      .set ⟨0, []⟩ "rows" (.array [.natural 1])]

theorem exists_failed_of_check (reply : Reply) (h : (match reply with
    | .failed _ => true
    | _ => false) = true) : ∃ e, reply = .failed e := by
  cases reply with
  | failed e => exact ⟨e, rfl⟩
  | _ => cases h

theorem extend_failed_rowsHeld : ∃ e, (rowsHeld.step (.extend ⟨0, []⟩ 0)).2.1 = .failed e ∧
    rowsHeld.ExtensionFailed ⟨0, []⟩ 0 e (rowsHeld.step (.extend ⟨0, []⟩ 0)).1 := by
  obtain ⟨e, he⟩ := exists_failed_of_check (rowsHeld.step (.extend ⟨0, []⟩ 0)).2.1
    (by decide +kernel)
  exact ⟨e, he, extend_failed he⟩

def look? (s : Session) (a : Address) : Option (String × Nat × List String) :=
  (s.locate? a).map fun (_, i, d) =>
    (i.render d, (d.descendants i.root).length, i.accessors.names)

/-- The list is there after the extension by it has failed. -/
theorem look?_extend_failed_rowsHeld :
    (∃ e, (rowsHeld.step (.extend ⟨0, []⟩ 0)).2.1 = .failed e) ∧
      rowsHeld.look? ⟨0, []⟩ = some ("<section></section>", 1, []) ∧
      (rowsHeld.step (.extend ⟨0, []⟩ 0)).1.look? ⟨0, []⟩ =
        some ("<section><ul></ul></section>", 2, ["rows"]) :=
  ⟨exists_failed_of_check _ (by decide +kernel), by decide +kernel, by decide +kernel⟩

end Session

end LiveMarkup
