import BlockLang.Analysis
import BlockLang.Proofs.Scope.View
import BlockLang.Proofs.Static.Constant

/-!
# Sessions during an analysis

Two facts that every step of an analysis keeps, whatever it finds wrong:

* the symbols around the current point are *sound* (`ScopeTree.Sound`): they bear the name they are
  found under, the value tracked for them has their type, and none has a place yet;
* the scopes around the current one declare what they declared before, with the same types.

`Session.Extends` is the two together. Errors are a separate matter: `Session.Clean` says that there
are none so far, and a step that records diagnostics keeps it exactly when it records warnings only.
-/

namespace BlockLang

/-! ### Sound symbols -/

/-- What an analysis knows of the symbol it finds as `x`. -/
structure Symbol.Sound (x : String) (s : Symbol) : Prop where
  /-- The symbol bears the name it is found under. -/
  name : s.name = x
  /-- The value tracked for the symbol has its type. -/
  wellTyped : s.WellTyped
  /-- The symbol has no place. -/
  storage : s.storage = none

/-- All symbols of a scope are sound. -/
def Scope.Sound (s : Scope) : Prop := ∀ x sym, s.symbols.get? x = some sym → sym.Sound x

namespace ScopeTree

/-- All symbols of the current scope and of the scopes around it are sound. -/
def Sound (t : ScopeTree) : Prop := ∀ s ∈ t.chain, s.Sound

theorem sound_iff {t : ScopeTree} : t.Sound ↔ t.here.Sound ∧ ∀ e ∈ t.outer, e.scope.Sound := by
  simp [Sound, chain]

theorem sound_empty : empty.Sound := by
  rw [sound_iff]
  refine ⟨fun x sym h ↦ ?_, fun e he ↦ absurd he List.not_mem_nil⟩
  cases h

theorem Sound.enter {t : ScopeTree} (h : t.Sound) (name : String) : (t.enter name).Sound := by
  intro s hs
  rcases List.mem_cons.1 hs with rfl | hs
  · intro x sym hx
    cases hx
  · exact h s hs

theorem Sound.exit? {t t' : ScopeTree} (h : t.Sound) (ht : t.exit? = some t') : t'.Sound := by
  obtain ⟨here, inner, outer, count⟩ := t
  cases outer with
  | nil => cases ht
  | cons e es =>
    obtain rfl := Option.some.inj ht
    intro s hs
    exact h s (List.mem_cons_of_mem _ hs)

/-- A visible symbol is sound. -/
theorem Sound.lookup? {t : ScopeTree} (h : t.Sound) {x : String} {sym : Symbol}
    (hx : t.lookup? x = some sym) : sym.Sound x := by
  obtain ⟨s, hs, hget⟩ := List.exists_of_findSome?_eq_some hx
  exact h s hs x sym hget

theorem Sound.wellTyped {t : ScopeTree} (h : t.Sound) : Env.WellTyped t.lookup? :=
  fun _ _ hx ↦ (h.lookup? hx).wellTyped

theorem Sound.declare? {t t' : ScopeTree} (h : t.Sound) {x : String} {ty : Ty}
    {value : Option Value} {pos : Pos} (ht : t.declare? x ty value pos = some t')
    (hty : ty.isStorable) (hvalue : ∀ v, value = some v → v.ty = ty) : t'.Sound := by
  have hnew : t.containsLocal x = false := containsLocal_of_declare? ht
  rw [t.declare?_eq_some hnew, Option.some.injEq] at ht
  subst ht
  rw [sound_iff] at h ⊢
  refine ⟨fun y sym hy ↦ ?_, h.2⟩
  have hpush := t.here.symbols.get?_push (t.newSymbol x ty value pos)
    ((t.here.symbols.contains_eq_false_iff x).1 hnew) y
  rw [hpush] at hy
  split at hy
  · rename_i hyx
    obtain rfl := Option.some.inj hy
    exact ⟨hyx.symm, ⟨hty, hvalue⟩, rfl⟩
  · exact h.1 y sym hy

private theorem sound_modify {s : Scope} (h : s.Sound) {x : String} {f : Symbol → Symbol}
    (hf : ∀ sym, s.symbols.get? x = some sym → (f sym).Sound x) :
    Scope.Sound { s with symbols := s.symbols.modify x f } := by
  intro y sym hy
  have hget : (s.symbols.modify x f).get? y = some sym := hy
  rw [SymbolTable.get?_modify] at hget
  split at hget
  · rename_i hyx
    subst hyx
    obtain ⟨old, hold, rfl⟩ := Option.map_eq_some_iff.1 hget
    exact hf old hold
  · exact h y sym hget

private theorem sound_modifyOuter {es es' : List Enclosing} (h : ∀ e ∈ es, e.scope.Sound)
    {x : String} {f : Symbol → Symbol}
    (hf : ∀ sym, es.findSome? (·.scope.symbols.get? x) = some sym → (f sym).Sound x)
    (hes : modifyOuter x f es = some es') : ∀ e ∈ es', e.scope.Sound := by
  induction es generalizing es' with
  | nil => cases hes
  | cons e es ih =>
    rw [modifyOuter] at hes
    have hhead : e.scope.Sound := h e List.mem_cons_self
    have htail : ∀ e' ∈ es, e'.scope.Sound := fun e' he' ↦ h e' (List.mem_cons_of_mem _ he')
    split at hes
    · obtain rfl := Option.some.inj hes
      intro e' he'
      rcases List.mem_cons.1 he' with rfl | he'
      · exact sound_modify hhead fun sym hsym ↦ hf sym (by rw [List.findSome?_cons, hsym])
      · exact htail e' he'
    · rename_i hx
      have hnone : e.scope.symbols.get? x = none :=
        (e.scope.symbols.contains_eq_false_iff x).1 (by simpa using hx)
      obtain ⟨es'', hes'', rfl⟩ := Option.map_eq_some_iff.1 hes
      intro e' he'
      rcases List.mem_cons.1 he' with rfl | he'
      · exact hhead
      · refine ih htail (fun sym hsym ↦ hf sym ?_) hes'' e' he'
        rw [List.findSome?_cons, hnone]
        exact hsym

/-- An assignment of a value of the variable's type, or of an unknown one, keeps symbols sound. -/
theorem Sound.assign? {t t' : ScopeTree} (h : t.Sound) {x : String} {value : Option Value}
    (hvalue : ∀ sym v, t.lookup? x = some sym → value = some v → v.ty = sym.ty)
    (ht : t.assign? x value = some t') : t'.Sound := by
  have hassign : ∀ sym, t.lookup? x = some sym → (Symbol.assign value sym).Sound x := by
    intro sym hsym
    obtain ⟨hname, hty, hstorage⟩ := h.lookup? hsym
    exact ⟨hname, ⟨hty.1, fun v hv ↦ hvalue sym v hsym hv⟩, hstorage⟩
  have hlookup : t.lookup? x =
      ((t.here.symbols.get? x).or (t.outer.findSome? (·.scope.symbols.get? x))) := by
    rw [ScopeTree.lookup?, chain, List.findSome?_cons, List.findSome?_map]
    cases t.here.symbols.get? x <;> rfl
  rw [sound_iff] at h
  rw [ScopeTree.assign?, modify?] at ht
  split at ht
  · obtain rfl := Option.some.inj ht
    rw [sound_iff]
    exact ⟨sound_modify h.1 fun sym hsym ↦ hassign sym (by rw [hlookup, hsym]; rfl), h.2⟩
  · rename_i hx
    have hnone : t.here.symbols.get? x = none :=
      (t.here.symbols.contains_eq_false_iff x).1 (by simpa [containsLocal] using hx)
    obtain ⟨es, hes, rfl⟩ := Option.map_eq_some_iff.1 ht
    rw [sound_iff]
    refine ⟨h.1, sound_modifyOuter h.2 (fun sym hsym ↦ hassign sym ?_) hes⟩
    rw [hlookup, hnone, hsym]
    rfl

end ScopeTree

/-! ### Parts of a session -/

namespace Session

@[simp] theorem scopes_note (s : Session) (e : Event) : (s.note e).scopes = s.scopes := rfl

@[simp] theorem scopes_report (s : Session) (d : Diagnostic) : (s.report d).scopes = s.scopes := rfl

@[simp] theorem scopes_reportAll (s : Session) (ds : List Diagnostic) :
    (s.reportAll ds).scopes = s.scopes := by
  induction ds generalizing s with
  | nil => rfl
  | cons d ds ih => exact ih (s.report d)

theorem types_enter (s : Session) (name : String) :
    (s.enter name).scopes.types = s.scopes.types.enter := rfl

theorem scopes_exit (s : Session) : s.exit.scopes = s.scopes.exit?.getD s.scopes := by
  rw [exit, exit?]
  cases s.scopes.exit? <;> rfl

@[simp] theorem diagnostics_exit (s : Session) : s.exit.diagnostics = s.diagnostics := by
  rw [exit, exit?]
  cases s.scopes.exit? <;> rfl

/-! ### Errors -/

/-- No error has been recorded. -/
def Clean (s : Session) : Prop := s.diagnostics.errors = []

theorem clean_report {s : Session} {d : Diagnostic} :
    (s.report d).Clean ↔ s.Clean ∧ d.category = .warning := by
  show (s.diagnostics.report d).errors = [] ↔ _
  rw [Diagnostics.report]
  split <;> simp [Diagnostics.addWarning, Diagnostics.addError, Clean, *]

/-- A session stays without errors exactly when it gets warnings only. -/
theorem clean_reportAll {s : Session} {ds : List Diagnostic} :
    (s.reportAll ds).Clean ↔ s.Clean ∧ Quiet ds := by
  induction ds generalizing s with
  | nil => simp [reportAll]
  | cons d ds ih =>
    show ((s.report d).reportAll ds).Clean ↔ _
    rw [ih, clean_report, and_assoc]
    simp [Quiet]

theorem clean_exit {s : Session} : s.exit.Clean ↔ s.Clean := by
  rw [Clean, diagnostics_exit, Clean]

/-! ### What a step keeps -/

/-- A later session in the same scope: sound symbols stay sound, and the scopes around the current
one declare what they declared. -/
structure Extends (s s' : Session) : Prop where
  /-- Sound symbols stay sound. -/
  sound : s.scopes.Sound → s'.scopes.Sound
  /-- The scopes around the current one declare the same variables. -/
  outer : ∀ {α : Type} (f : Nat → Symbol → Option α), Blind f →
    (s'.scopes.view f).outer = (s.scopes.view f).outer

theorem Extends.refl (s : Session) : s.Extends s := ⟨id, fun _ _ ↦ rfl⟩

theorem Extends.trans {s s' s'' : Session} (h : s.Extends s') (h' : s'.Extends s'') :
    s.Extends s'' :=
  ⟨h'.sound ∘ h.sound, fun f hf ↦ (h'.outer f hf).trans (h.outer f hf)⟩

/-- A session with the same scopes. -/
theorem Extends.of_eq {s s' : Session} (h : s'.scopes = s.scopes) : s.Extends s' :=
  ⟨fun hs ↦ h ▸ hs, fun _ _ ↦ by rw [h]⟩

/-- Leaving the scope that was entered ends where it began, seen by a blind view. -/
theorem Extends.view_exit {α : Type} {f : Nat → Symbol → Option α} (hf : Blind f) {s s' : Session}
    {name : String} (h : (s.enter name).Extends s') : s'.exit.scopes.view f = s.scopes.view f := by
  rw [scopes_exit]
  exact ScopeTree.view_exit_of_outer f (h.outer f hf)

theorem Extends.types_exit {s s' : Session} {name : String} (h : (s.enter name).Extends s') :
    s'.exit.scopes.types = s.scopes.types :=
  h.view_exit blind_types

theorem Extends.exit {s s' : Session} {name : String} (h : (s.enter name).Extends s') :
    s.Extends s'.exit := by
  refine ⟨fun hs ↦ ?_, fun f hf ↦ by rw [h.view_exit hf]⟩
  have hs' : s'.scopes.Sound := h.sound (hs.enter name)
  rw [scopes_exit]
  rcases hexit : s'.scopes.exit? with - | t
  · exact hs'
  · exact hs'.exit? hexit

end Session

end BlockLang
