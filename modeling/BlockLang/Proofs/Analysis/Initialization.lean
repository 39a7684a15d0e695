import BlockLang.Proofs.Analysis.Marks
import BlockLang.Proofs.Analysis.Visits

/-!
# Reads before initialization

An analysis warns of a read when the symbol that it finds lacks the mark of initialization. Three
operations write the mark: a declaration with a known value, the store that follows a declaration
with an initializer of unknown value, and an assignment through any number of scopes. Here the mark
is replaced by the history of the analysis.

Two lists come along with the visits of an analysis, of the variables declared without initializer
(`Visit.leaves?`) and of those assigned to (`Visit.stores?`). Every visit keeps the marks accounted
for by the two lists (`Visit.accounts_run`), whatever mistakes it reports. So there is a warning for
each read of a variable that is in the first list and not in the second, and for no other read
(`Program.earlyReads_visits`).
-/

namespace BlockLang

/-! ### Reports -/

/-- A read of a variable before anything was stored in it. -/
def Problem.isEarlyRead : Problem → Bool
  | usedUninitialized _ => true
  | _ => false

/-- The early reads among diagnostics. -/
def earlyReads (ds : List Diagnostic) : List Diagnostic := ds.filter (·.problem.isEarlyRead)

@[simp] theorem earlyReads_append (ds es : List Diagnostic) :
    earlyReads (ds ++ es) = earlyReads ds ++ earlyReads es :=
  List.filter_append _ _

theorem earlyReads_eq_nil_iff {ds : List Diagnostic} :
    earlyReads ds = [] ↔ ∀ d ∈ ds, d.problem.isEarlyRead = false := by
  simp [earlyReads, List.filter_eq_nil_iff]

theorem Diagnostic.Plain.isEarlyRead {d : Diagnostic} (h : d.Plain) :
    d.problem.isEarlyRead = false := by
  rw [Diagnostic.Plain] at h
  unfold Problem.isEarlyRead
  split
  · rename_i hx
    rw [hx] at h
    exact h.elim
  · rfl

namespace Session

/-- Of reported diagnostics those that are warnings join the warnings, in order. -/
theorem warnings_reportAll (s : Session) (ds : List Diagnostic) :
    (s.reportAll ds).diagnostics.warnings =
      s.diagnostics.warnings ++ ds.filter (·.category = .warning) := by
  induction ds generalizing s with
  | nil => exact (List.append_nil _).symm
  | cons d ds ih =>
    have hhead : (s.report d).diagnostics.warnings =
        s.diagnostics.warnings ++ [d].filter (·.category = .warning) := by
      show (s.diagnostics.report d).warnings = _
      rw [Diagnostics.report]
      by_cases hd : d.category = .warning
      · simp [hd, Diagnostics.addWarning]
      · simp [hd, Diagnostics.addError]
    have hrest : (s.reportAll (d :: ds)).diagnostics.warnings = _ := ih (s.report d)
    rw [hrest, hhead, List.append_assoc, ← List.filter_append]
    rfl

/-- The early reads that have been recorded. -/
def earlyReads (s : Session) : List Diagnostic := BlockLang.earlyReads s.diagnostics.warnings

theorem earlyReads_reportAll (s : Session) (ds : List Diagnostic) :
    (s.reportAll ds).earlyReads = s.earlyReads ++ BlockLang.earlyReads ds := by
  rw [earlyReads, warnings_reportAll, earlyReads_append, BlockLang.earlyReads, BlockLang.earlyReads,
    List.filter_filter]
  refine congrArg _ (List.filter_congr fun d _ ↦ ?_)
  -- an early read is a warning
  rcases hd : d.problem.isEarlyRead
  · rfl
  · unfold Problem.isEarlyRead at hd
    split at hd
    · rename_i hx
      simp [Diagnostic.category, Problem.category, hx]
    · exact absurd hd (by simp)

end Session

/-! ### Expressions -/

namespace Expr

/-- What inference warns of on a use that is an early read. -/
def earlyRead (r : Use) : Diagnostic := ⟨r.pos, .usedUninitialized r.name⟩

theorem entry_of_mem_uses {find : String → Option (Nat × String)} {e : Expr} {r : Use}
    (hr : r ∈ e.uses find) : r.entry = find r.name := by
  induction e with
  | num p v => exact absurd hr List.not_mem_nil
  | bool p b => exact absurd hr List.not_mem_nil
  | var p x => exact List.mem_singleton.1 hr ▸ rfl
  | not p e ih => exact ih hr
  | binary p op l r ihl ihr => exact (List.mem_append.1 hr).elim ihl ihr

/-- Inference warns of each read of a variable without the mark. -/
theorem earlyReads_typeFaults (env : Env) (find : String → Option (Nat × String)) (e : Expr) :
    earlyReads (e.typeFaults env) =
      ((e.uses find).filter fun r ↦ env.isUnset r.name).map earlyRead := by
  induction e with
  | num p v => rfl
  | bool p b => rfl
  | var p x =>
    rw [typeFaults, uses, List.filter_singleton, Env.isUnset]
    rcases env x with - | s
    · rfl
    · dsimp only [Option.any_some]
      cases s.initialized <;> rfl
  | not p e ih =>
    rw [typeFaults, earlyReads_append, ih, uses]
    rcases (e.type env).typeOfNot with q | t <;> exact List.append_nil _
  | binary p op l r ihl ihr =>
    rw [typeFaults, earlyReads_append, earlyReads_append, ihl, ihr, uses, List.filter_append,
      List.map_append]
    rcases op.typeOf (l.type env) (r.type env) with q | t <;> exact List.append_nil _

/-- Evaluation warns of unknown values, and of no early read. -/
theorem earlyReads_valueFaults (env : Env) (e : Expr) : earlyReads (e.valueFaults env) = [] := by
  induction e with
  | num p v => rfl
  | bool p b => rfl
  | var p x =>
    rw [valueFaults]
    rcases env x with - | s
    · rfl
    · dsimp only
      split <;> rfl
  | not p e ih =>
    rw [valueFaults, earlyReads_append, ih]
    rcases e.value env with - | w | b <;> rfl
  | binary p op l r ihl ihr =>
    rw [valueFaults, earlyReads_append, earlyReads_append, ihl, ihr]
    unfold BinaryOp.combineFaults
    split
    · rfl
    · rcases l.value env with - | a
      · rfl
      · rcases r.value env with - | b
        · rfl
        · dsimp only [BinaryOp.applyFaults]
          rcases op.typeOf a.ty b.ty with q | t
          · rfl
          · dsimp only
            split <;> rfl

end Expr

theorem Purpose.earlyReads_faults (env : Env) (e : Expr) (u : Purpose) :
    earlyReads (u.faults env e) = [] := by
  have hparts : earlyReads e.constantPartFaults = [] := by
    rw [← e.flatMap_constantParts env, earlyReads_eq_nil_iff]
    intro d hd
    obtain ⟨part, -, hd⟩ := List.mem_flatMap.1 hd
    exact earlyReads_eq_nil_iff.1 (part.earlyReads_valueFaults env) d hd
  rcases u with - | - | ty
  · exact hparts
  · exact hparts
  · exact e.earlyReads_valueFaults env

namespace Visit

variable {s : Session} {a : Visit} {u : Purpose} {e : Expr}

/-- A visit that looks at an expression warns of the reads of variables without the mark. -/
theorem earlyReads_run (hu : a.purpose? s = some u) (he : a.expr? = some e) :
    (a.run s).earlyReads = s.earlyReads ++
      ((e.uses s.scopes.resolve).filter fun r ↦ s.env.isUnset r.name).map Expr.earlyRead := by
  obtain ⟨others, hplain, hdiagnostics⟩ := exists_reports hu he
  have hothers : earlyReads others = [] :=
    earlyReads_eq_nil_iff.2 fun d hd ↦ (hplain d hd).isEarlyRead
  have hfaults : earlyReads (if u.accepts (e.type s.env) then u.faults s.env e else []) = [] := by
    split
    · exact u.earlyReads_faults s.env e
    · rfl
  rw [Session.earlyReads, hdiagnostics, ← Session.earlyReads, Session.earlyReads_reportAll,
    earlyReads_append, earlyReads_append, e.earlyReads_typeFaults s.env s.scopes.resolve, hothers,
    hfaults, List.append_nil, List.append_nil]

theorem earlyReads_run_of_none (h : a.purpose? s = none ∨ a.expr? = none) :
    (a.run s).earlyReads = s.earlyReads := by
  obtain ⟨others, hplain, hdiagnostics⟩ := exists_reports_of_none h
  rw [Session.earlyReads, hdiagnostics, ← Session.earlyReads, Session.earlyReads_reportAll,
    earlyReads_eq_nil_iff.2 fun d hd ↦ (hplain d hd).isEarlyRead, List.append_nil]

end Visit

/-! ### Visits -/

/-- A new name changes the current scope only, where it has the mark exactly if the variable has an
initializer. -/
theorem Declarator.exists_here_analyze (isGlobal : Bool) (ty : Ty) {v : Declarator} {s : Session}
    (hnew : s.scopes.containsLocal v.name = false) :
    ∃ here sym, (v.analyze isGlobal ty s).scopes = { s.scopes with here := here } ∧
      here.id = s.scopes.here.id ∧
      (∀ y, here.symbols.get? y = if y = v.name then some sym else s.scopes.here.symbols.get? y) ∧
      sym.initialized = v.init.isSome := by
  have hget (sym : Symbol) := s.scopes.here.symbols.get?_push sym
    ((s.scopes.here.symbols.contains_eq_false_iff v.name).1 hnew)
  -- the scope after the declaration itself
  let declared (value : Option Value) : Scope :=
    { s.scopes.here with
      symbols := s.scopes.here.symbols.push v.name (s.scopes.newSymbol v.name ty value v.pos) }
  have hdeclare (value : Option Value) : s.scopes.declare? v.name ty value v.pos =
      some { s.scopes with here := declared value } :=
    s.scopes.declare?_eq_some hnew ty value v.pos
  rw [analyze, hnew, if_neg Bool.false_ne_true]
  rcases v.init with - | e
  · refine ⟨declared none, s.scopes.newSymbol v.name ty none v.pos, ?_, rfl, hget _, rfl⟩
    simp only [Session.scopes_report, Session.scopes_note, Session.declare, hdeclare,
      Option.getD_some]
  · simp only [Session.scopes_note, Session.declare, Session.scopes_reportAll, hdeclare,
      Option.getD_some]
    rcases e.storedValue s.env ty with - | w
    · -- the store that follows finds the variable just declared
      have hlocal : (declared none).symbols.contains v.name = true := by
        rw [SymbolTable.contains, hget, if_pos rfl, Option.isSome_some]
      refine ⟨{ declared none with
        symbols := (declared none).symbols.modify v.name (Symbol.assign none) },
        (s.scopes.newSymbol v.name ty none v.pos).assign none, ?_, rfl, fun y ↦ ?_, rfl⟩
      · have hassign : ScopeTree.assign? { s.scopes with here := declared none } v.name none =
            some (ScopeTree.modifyHere { s.scopes with here := declared none } v.name
              (Symbol.assign none)) := if_pos hlocal
        simp only [Option.isNone_none, if_true, Session.assign, hassign, Option.getD_some]
        rfl
      · rw [SymbolTable.get?_modify, hget, hget, if_pos rfl, Option.map_some]
        split <;> rfl
    · exact ⟨declared (some w), s.scopes.newSymbol v.name ty (some w) v.pos, rfl, rfl, hget _, rfl⟩

namespace Visit

/-- The variable that a visit declares without initializer, by the number of its scope and its
name. -/
def leaves? (s : Session) : Visit → Option (Nat × String)
  | declarator _ ty v =>
    if ty.isStorable && !s.scopes.containsLocal v.name && v.init.isNone then
      some (s.scopes.here.id, v.name)
    else none
  | _ => none

/-- The variable that a visit assigns to, whatever the value. -/
def stores? (s : Session) : Visit → Option (Nat × String)
  | assign _ x _ => s.scopes.resolve x
  | _ => none

variable {s : Session} {left stored : List (Nat × String)}

/-- A variable of a declaration joins the first list if it is new and has no initializer. -/
theorem accounts_declarator (h : s.scopes.Accounts left stored) (isGlobal : Bool) (ty : Ty)
    (v : Declarator) :
    (run s (declarator isGlobal ty v)).scopes.Accounts
      (left ++ (leaves? s (declarator isGlobal ty v)).toList) stored := by
  rw [run, leaves?]
  rcases hty : ty.isStorable
  · exact (List.append_nil left).symm ▸ h
  rcases hnew : s.scopes.containsLocal v.name
  · obtain ⟨here, sym, hscopes, hid, hget, hmark⟩ := v.exists_here_analyze isGlobal ty hnew
    have hleaves : (if (true && !false && v.init.isNone) = true then
          some (s.scopes.here.id, v.name) else none).toList =
        if sym.initialized then [] else [(s.scopes.here.id, v.name)] := by
      rw [hmark]
      cases v.init <;> rfl
    rw [if_pos rfl, hscopes, hleaves]
    exact h.declare ((s.scopes.here.symbols.contains_eq_false_iff v.name).1 hnew) hid hget
  · rw [if_pos rfl, v.scopes_analyze_of_containsLocal isGlobal ty hnew]
    exact (List.append_nil left).symm ▸ h

/-- A parameter has a value from the start. -/
theorem accounts_param (h : s.scopes.Accounts left stored) (p : Param) :
    (p.analyze s).scopes.Accounts left stored := by
  rcases hty : p.ty.isStorable
  · rw [Param.analyze, hty, if_neg Bool.false_ne_true]
    exact h
  rcases hnew : s.scopes.containsLocal p.name
  · have hdeclared := h.declare? (Param.declare?_scopes_analyze hty hnew)
    have hdefault : p.ty.defaultValue.isSome = true := by
      revert hty
      cases p.ty <;> decide
    rwa [hdefault, if_pos rfl, List.append_nil] at hdeclared
  · rw [Param.analyze, hty, hnew, if_pos rfl, if_pos rfl]
    exact h

/-- The variable that an assignment finds joins the second list, whatever the value is. -/
theorem accounts_assign (hsound : s.scopes.Sound) (h : s.scopes.Accounts left stored) (pos : Pos)
    (x : String) (e : Expr) :
    (s.analyzeAssign pos x e).scopes.Accounts left (stored ++ (s.scopes.resolve x).toList) := by
  rw [Session.analyzeAssign]
  rcases hx : s.scopes.lookup? x with - | target
  · rw [s.scopes.lookup?_eq_binding?, Option.map_eq_none_iff] at hx
    rw [ScopeTree.resolve, hx]
    exact (List.append_nil stored).symm ▸ h
  · simp only [Session.assign, Session.scopes_reportAll]
    exact h.assign hsound x _

/-- The marks stay accounted for. -/
theorem accounts_run (hsound : s.scopes.Sound) (h : s.scopes.Accounts left stored) (a : Visit) :
    (a.run s).scopes.Accounts (left ++ (a.leaves? s).toList) (stored ++ (a.stores? s).toList) := by
  -- most visits have no part in the history, and most of those leave the scopes alone
  have hkeep : ∀ {t : ScopeTree}, t.Accounts left stored →
      t.Accounts (left ++ []) (stored ++ []) := by
    intro t ht
    rwa [List.append_nil, List.append_nil]
  have hsame : ∀ {t : ScopeTree}, t = s.scopes → t.Accounts (left ++ []) (stored ++ []) :=
    fun ht ↦ hkeep (ht ▸ h)
  rcases a with e | name | - | ⟨isGlobal, ty, v⟩ | v | p | ⟨pos, x, e⟩ | ⟨expected, pos, value⟩ |
    e | ⟨c, cond⟩ | f
  case note => exact hsame rfl
  case enter => exact hkeep (h.enter name)
  case exit =>
    refine hkeep ?_
    rw [run, Session.scopes_exit]
    rcases he : s.scopes.exit? with - | t
    · exact h
    · exact h.exit? he
  case declarator => exact (List.append_nil stored).symm ▸ accounts_declarator h isGlobal ty v
  case reserved => exact hsame rfl
  case param => exact hkeep (accounts_param h p)
  case assign => exact (List.append_nil left).symm ▸ accounts_assign hsound h pos x e
  case ret => exact hsame (s.scopes_analyzeReturn expected pos value)
  case eval => exact hsame (s.scopes_reportAll _)
  case test => exact hsame (s.scopes_checkCondition c cond)
  case noReturn => exact hsame rfl

end Visit

namespace Session

/-- What visits contribute in order, each in the session in which it is made. -/
def gather {α : Type} (f : Session → Visit → Option α) (s : Session) : List Visit → List α
  | [] => []
  | a :: vs => (f s a).toList ++ gather f (a.run s) vs

/-- The marks are accounted for at every point of an analysis. -/
theorem accounts_follow {s : Session} {left stored : List (Nat × String)}
    (hsound : s.scopes.Sound) (h : s.scopes.Accounts left stored) (vs : List Visit) :
    (s.follow vs).scopes.Accounts (left ++ s.gather Visit.leaves? vs)
      (stored ++ s.gather Visit.stores? vs) := by
  induction vs generalizing s left stored with
  | nil => simpa [gather] using h
  | cons a vs ih =>
    have hrest := ih (a.sound_run hsound) (Visit.accounts_run hsound h a)
    rw [List.append_assoc, List.append_assoc] at hrest
    exact hrest

end Session

/-! ### Programs -/

namespace Program

/-- Warnings of reads before initialization are exact. The visits of a program make up its analysis
and take up its expressions in order. A visit that looks at an expression records one warning for
each read in it, from left to right, whose variable was declared without initializer and is not the
target of an assignment that was visited before. No other visit records any. -/
theorem earlyReads_visits (entry : String) (p : Program) :
    (∀ x, Problem.message (.usedUninitialized x) =
        "variable '" ++ x ++ "' is used before being initialized") ∧
      (Session.follow {} (p.visits entry)).diagnostics = (p.analyze entry {}).diagnostics ∧
      (p.visits entry).filterMap Visit.expr? = p.exprs ∧
      ∀ before a s, before ++ [a] <+: p.visits entry → Session.follow {} before = s →
        (∀ u e, a.purpose? s = some u → a.expr? = some e →
          (a.run s).earlyReads = s.earlyReads ++
            ((e.uses s.scopes.resolve).filter fun r ↦ r.entry.any fun k ↦
              decide (k ∈ Session.gather Visit.leaves? {} before) &&
                decide (k ∉ Session.gather Visit.stores? {} before)).map
              fun r ↦ ⟨r.pos, .usedUninitialized r.name⟩) ∧
        (a.purpose? s = none ∨ a.expr? = none → (a.run s).earlyReads = s.earlyReads) := by
  refine ⟨fun x ↦ rfl, p.diagnostics_follow_visits entry, p.filterMap_expr?_visits entry, ?_⟩
  rintro before a s - rfl
  refine ⟨fun u e hu he ↦ ?_, Visit.earlyReads_run_of_none⟩
  have hsound := Session.sound_follow (s := {}) ScopeTree.sound_empty before
  have haccounts := Session.accounts_follow (s := {}) ScopeTree.sound_empty .empty before
  rw [Visit.earlyReads_run hu he]
  refine congrArg (_ ++ List.map _ ·) (List.filter_congr fun r hr ↦ ?_)
  rw [Session.env, haccounts.isUnset_eq hsound, e.entry_of_mem_uses hr, List.nil_append,
    List.nil_append]

/-- A program in which one variable hides another, `int f() { int x; if (true) { int x; x = true; x;
} return x; }`. -/
def hidden : Program where
  function :=
    { returnTy := .int
      name := "f"
      body :=
        .simple (.declare ⟨.int, [⟨"x", none, ⟨1, 15⟩⟩], ⟨1, 11⟩⟩)
          (.ifThen ⟨1, 18⟩ (.bool ⟨1, 22⟩ true)
            (.simple (.declare ⟨.int, [⟨"x", none, ⟨1, 34⟩⟩], ⟨1, 30⟩⟩)
              (.simple (.assign ⟨1, 37⟩ "x" (.bool ⟨1, 41⟩ true))
                (.simple (.eval ⟨1, 47⟩ (.var ⟨1, 47⟩ "x")) .done)))
            (.simple (.ret ⟨1, 52⟩ (some (.var ⟨1, 59⟩ "x"))) .done)) }

/-- The assignment is of the wrong type, and the read after it is not an early one; the variable
outside is not assigned to, and its read is. -/
theorem earlyReads_hidden :
    (hidden.visits "_start").take 8 ++ [.eval (.var ⟨1, 47⟩ "x")] <+: hidden.visits "_start" ∧
      (Session.follow {} ((hidden.visits "_start").take 9)).earlyReads = [] ∧
      (hidden.visits "_start").take 10 ++ [.ret .int ⟨1, 52⟩ (some (.var ⟨1, 59⟩ "x"))] <+:
        hidden.visits "_start" ∧
      (Session.follow {} ((hidden.visits "_start").take 11)).earlyReads =
        [⟨⟨1, 59⟩, .usedUninitialized "x"⟩] := by
  obtain ⟨-, -, -, hvisits⟩ := earlyReads_visits "_start" hidden
  have hinner : (hidden.visits "_start").take 8 ++ [.eval (.var ⟨1, 47⟩ "x")] <+:
      hidden.visits "_start" := by
    decide +kernel
  have houter : (hidden.visits "_start").take 10 ++
      [.ret .int ⟨1, 52⟩ (some (.var ⟨1, 59⟩ "x"))] <+: hidden.visits "_start" := by
    decide +kernel
  refine ⟨hinner, ?_, houter, ?_⟩
  · exact ((hvisits _ _ _ hinner rfl).1 .discard _ rfl rfl).trans (by decide +kernel)
  · exact ((hvisits _ _ _ houter rfl).1 (.yield .int) _ rfl rfl).trans (by decide +kernel)

end Program

end BlockLang
