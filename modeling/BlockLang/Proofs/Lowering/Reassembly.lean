import BlockLang.Proofs.Lowering.Capture

/-!
# Code with places known in advance

`Block.reassemble` is the code of a block where names are looked up among places that are known from
the start: in every scope, those at the end of its block. It differs from `Block.assemble` in
nothing else, so the two pieces of code have the same length and differ at most in operands.

They are the same code exactly if the text captures no occurrence of a variable
(`Block.WellFormed.echoes`). The comparison is compositional: `Echoes` relates two lists that are
the same unless something is captured, and pieces of such lists are put together by `Echoes.append`.
-/

namespace BlockLang

/-! ### Lists that echo one another -/

/-- The second list is as long as the first, and the same if and only if there is nothing in
`us`. -/
structure Echoes {α β : Type} (c c' : List α) (us : List β) : Prop where
  /-- The lists have the same length. -/
  length : c'.length = c.length
  /-- They differ if there is something in `us`. -/
  eq_iff : c' = c ↔ us = []

namespace Echoes

variable {α β γ : Type} {c c' d d' : List α} {us vs : List β}

theorem same (c : List α) : Echoes c c ([] : List β) := ⟨rfl, by simp⟩

theorem append (h : Echoes c c' us) (h' : Echoes d d' vs) :
    Echoes (c ++ d) (c' ++ d') (us ++ vs) := by
  refine ⟨by rw [List.length_append, List.length_append, h.length, h'.length], ?_⟩
  rw [List.append_eq_nil_iff, ← h.eq_iff, ← h'.eq_iff]
  constructor
  · exact fun heq ↦ List.append_inj heq h.length
  · rintro ⟨rfl, rfl⟩
    rfl

theorem append_same (h : Echoes c c' us) (d : List α) : Echoes (c ++ d) (c' ++ d) us := by
  have happend := h.append (same (β := β) d)
  rwa [List.append_nil] at happend

theorem same_append (d : List α) (h : Echoes c c' us) : Echoes (d ++ c) (d ++ c') us :=
  (same (β := β) d).append h

theorem map {f : α → γ} (hf : Function.Injective f) (h : Echoes c c' us) :
    Echoes (c.map f) (c'.map f) us :=
  ⟨by rw [List.length_map, List.length_map, h.length], by rw [hf.list_map.eq_iff, h.eq_iff]⟩

end Echoes

/-! ### Expressions -/

theorem Outlook.captures_append (ν : Outlook) (us vs : List (Pos × String)) :
    ν.captures (us ++ vs) = ν.captures us ++ ν.captures vs :=
  List.filter_append us vs

theorem mem_loadAcc {ty ty' : Ty} {m m' : Mem} (h : loadAcc ty m = loadAcc ty' m') : m = m' := by
  rw [loadAcc, loadAcc] at h
  split at h <;> split at h <;> cases h <;> rfl

theorem mem_storeAcc {ty ty' : Ty} {m m' : Mem} (h : storeAcc ty m = storeAcc ty' m') : m = m' :=
  (Instr.store.inj h).1

/-- Code for one variable that shows its place. -/
theorem Echoed.echoes {α : Type} {π ρ : Nest Placed} {ν : Outlook} {x : String}
    {c c' : List α} (h : Echoed π ρ ν x) (instr : Placed → α)
    (hc : ∀ q, π.find? x = some q → c = [instr q])
    (hc' : ∀ q, ρ.find? x = some q → c' = [instr q])
    (hinstr : ∀ q q', instr q' = instr q → q'.mem = q.mem) (pos : Pos) :
    Echoes c c' (ν.captures [(pos, x)]) := by
  obtain ⟨q, q', hq, hq', hcases⟩ := h
  rw [hc q hq, hc' q' hq']
  refine ⟨rfl, ?_⟩
  rcases hcases with ⟨hν, rfl⟩ | ⟨hν, hne⟩
  · simp [Outlook.captures, hν]
  · have hdiffer : instr q' ≠ instr q := fun heq ↦ hne (hinstr q q' heq)
    simp [Outlook.captures, hν, hdiffer]

namespace Expr

variable {fold : Bool} {π ρ : Nest Placed} {ν : Outlook} {Γ : Context}

/-- There are no variables in a constant. -/
theorem occurrences_of_isConstant {e : Expr} (h : e.isConstant = true) : e.occurrences = [] := by
  induction e with
  | num p v => rfl
  | bool p b => rfl
  | var p x => cases h
  | not p e ih => exact ih h
  | binary p op l r ihl ihr =>
    obtain ⟨hl, hr⟩ := Bool.and_eq_true_iff.1 h
    rw [occurrences, ihl hl, ihr hr]
    rfl

theorem occurrences_of_foldedValue? {e : Expr} {v : Value} (h : e.foldedValue? fold = some v) :
    e.occurrences = [] := by
  rw [foldedValue?] at h
  split at h
  · rename_i hfoldable
    rw [isFoldable, Bool.and_eq_true_iff] at hfoldable
    exact occurrences_of_isConstant hfoldable.2
  · cases h

theorem occurrences_of_startWord? {e : Expr} {w : Int32} (h : e.startWord? fold = some w) :
    e.occurrences = [] := by
  rw [startWord?] at h
  split at h
  · rename_i v hv
    exact occurrences_of_foldedValue? hv
  · cases e with
    | num p v => rfl
    | bool p b => rfl
    | var p x => cases h
    | not p e => cases h
    | binary p op l r => cases h

/-- Code for an expression without variables does not look any up. -/
theorem echoes_of_occurrences {e : Expr} (h : e.occurrences = []) {α : Type} (c : List α) :
    Echoes c c (ν.captures e.occurrences) := by
  rw [h]
  exact .same c

theorem HasType.echoes {e : Expr} {t : Ty} (h : e.HasType Γ.find? t)
    (hΓ : ∀ x t, Γ.find? x = some t → Echoed π ρ ν x) :
    Echoes (e.assemble fold π.find?) (e.assemble fold ρ.find?) (ν.captures e.occurrences) := by
  induction h with
  | num p v => exact .same _
  | bool p b => exact .same _
  | @var p x t hx =>
    refine (hΓ x t hx).echoes (fun q ↦ loadAcc q.ty q.mem) (fun q hq ↦ ?_) (fun q hq ↦ ?_)
      (fun _ _ ↦ mem_loadAcc) p
    · rw [assemble, hq]
    · rw [assemble, hq]
  | @not p e he ih =>
    rw [assemble, assemble]
    rcases hv : (Expr.not p e).foldedValue? fold with - | v
    · exact ih.append_same notCode
    · exact echoes_of_occurrences (occurrences_of_foldedValue? hv) _
  | @binary p op l r _ _ _ hop hl hr ihl ihr =>
    rw [assemble, assemble]
    rcases hv : (Expr.binary p op l r).foldedValue? fold with - | v
    · rw [occurrences, Outlook.captures_append]
      exact (((ihl.append_same [.push .ax]).append ihr).append_same [.pop .cx]).append_same op.code
    · exact echoes_of_occurrences (occurrences_of_foldedValue? hv) _

end Expr

/-! ### Declarations and statements -/

namespace Site.Foretold

variable {σ ω : Site} {ρ : Nest Placed} {ν : Outlook}

theorem lines (h : σ.Foretold ω ρ ν) (fold : Bool) {e : Expr} {t : Ty}
    (he : e.HasType σ.types.find? t) :
    Echoes (e.lines fold σ) (e.lines fold (σ.over ρ)) (ν.captures e.occurrences) :=
  (he.echoes fun _ _ hx ↦ h.echoed hx).map fun _ _ ↦ Line.instr.inj

theorem storeCode (h : σ.Foretold ω ρ ν) {x : String} {t : Ty} (hx : σ.types.find? x = some t)
    (pos : Pos) :
    Echoes (σ.storeCode x) ((σ.over ρ).storeCode x) (ν.captures [(pos, x)]) := by
  refine (h.echoed hx).echoes (fun q ↦ .instr (storeAcc q.ty q.mem)) (fun q hq ↦ ?_)
    (fun q hq ↦ ?_) (fun _ _ heq ↦ mem_storeAcc (Line.instr.inj heq)) pos
  · rw [Site.storeCode, hq]
  · rw [Site.storeCode, Site.over, hq]

theorem declarator (h : σ.Foretold ω ρ ν) (fold : Bool) {ty : Ty} {v : Declarator}
    (hinit : ∀ e, v.init = some e → e.HasType σ.types.find? ty) :
    Echoes (v.assemble fold σ ty) (v.assemble fold (σ.over ρ) ty)
      (ν.captures (v.init.toList.flatMap Expr.occurrences)) := by
  rw [Declarator.assemble, Declarator.assemble]
  rcases hv : v.init with - | e
  · exact .same _
  · rw [Option.toList_some, List.flatMap_singleton]
    dsimp only
    rw [Expr.startCode, Expr.startCode]
    rcases hw : e.startWord? fold with - | w
    · exact (h.lines fold (hinit e hv)).append_same _
    · exact Expr.echoes_of_occurrences (Expr.occurrences_of_startWord? hw) _

/-- The variables of a declaration, one after the other. The site keeps the places known in
advance, since each variable is already where it is put. -/
theorem declareAll (h : σ.Foretold ω ρ ν) (fold : Bool) {ty : Ty} {vs : List Declarator}
    (hvs : WellDeclared false ty σ.types vs) (hty : vs ≠ [] → ty.isStorable)
    (hgrows : (σ.declareAll ty vs).Grows ω) :
    (σ.over ρ).declareAll ty vs = (σ.declareAll ty vs).over ρ ∧
      (σ.declareAll ty vs).Foretold ω ρ (ν.pass (vs.map Declarator.name)) ∧
      Echoes (assembleAll fold ty vs σ) (assembleAll fold ty vs (σ.over ρ))
        (Outlook.capturesIn vs ν) := by
  induction vs generalizing σ ν with
  | nil => exact ⟨rfl, h, .same _⟩
  | cons v vs ih =>
    cases hvs with
    | cons hnew hinit hrest =>
      rw [← σ.types_declare] at hrest
      have hstorable : vs ≠ [] → ty.isStorable := fun _ ↦ hty (List.cons_ne_nil v vs)
      have hnext : (σ.declare v.name ty).Grows ω :=
        (grows_declareAll hrest hstorable).trans hgrows
      obtain ⟨hsite, hafter, hcode⟩ := ih (h.declare hnext) hrest hstorable hgrows
      have hover := σ.over_declare ω h.here hnext
      refine ⟨?_, hafter, ?_⟩
      · show ((σ.over ρ).declare v.name ty).declareAll ty vs = _
        rw [hover, hsite]
        rfl
      · rw [assembleAll, assembleAll, hover]
        exact (h.declarator fold fun e he ↦ (hinit e he).1).append hcode

/-- The first statement of a well-formed block. -/
theorem simple (h : σ.Foretold ω ρ ν) (o : Options) (f : String) {result : Ty} {a : Simple}
    {rest : Block} (hwf : (Block.simple a rest).WellFormed result σ.types)
    (hgrows : (a.siteAfter σ).Grows ω) :
    a.siteAfter (σ.over ρ) = (a.siteAfter σ).over ρ ∧
      (a.siteAfter σ).Foretold ω ρ (ν.pass a.names) ∧
      Echoes (a.assemble o f σ) (a.assemble o f (σ.over ρ)) (a.captured ν) := by
  cases hwf with
  | @declare _ d _ hd _ =>
    obtain ⟨hsite, hafter, hcode⟩ := h.declareAll o.foldConstants hd.declared hd.storable hgrows
    exact ⟨hsite, hafter, hcode.same_append _⟩
  | @assign _ pos x e _ _ hx he _ =>
    refine ⟨rfl, h, Echoes.same_append _ ?_⟩
    rw [Simple.captured, Outlook.captures_append]
    exact (h.lines o.foldConstants he).append (h.storeCode hx pos)
  | @ret _ pos e _ he _ =>
    refine ⟨rfl, h, Echoes.same_append _ ?_⟩
    rw [Simple.captured, Option.toList_some, List.flatMap_singleton]
    exact (h.lines o.foldConstants he).append_same _
  | retVoid _ _ => exact ⟨rfl, h, .same _⟩
  | eval he _ => exact ⟨rfl, h, Echoes.same_append _ (h.lines o.foldConstants he)⟩

end Site.Foretold

/-! ### Blocks -/

namespace Block

/-- The code of a block at a site, in the function `f`, where names are looked up in `ρ` and, inside
the block, in places known in advance. -/
def reassemble (o : Options) (f : String) : Block → Site → Nest Placed → List Line
  | done, _, _ => []
  | simple a rest, σ, ρ => a.assemble o f (σ.over ρ) ++ rest.reassemble o f (a.siteAfter σ) ρ
  | ifThen _ c t rest, σ, ρ =>
    o.remark (guardText .cond c) ++
      testCode (c.lines o.foldConstants (σ.over ρ)) (.construct .endIf σ.labels) ++
      t.reassemble o f σ.number.enter (t.foreseen σ.number ρ) ++
      [.label (.construct .endIf σ.labels)] ++
      rest.reassemble o f (t.siteInside σ.number) ρ
  | ifElse _ c t e rest, σ, ρ =>
    o.remark (guardText .cond c) ++
      testCode (c.lines o.foldConstants (σ.over ρ)) (.construct .otherwise σ.labels) ++
      t.reassemble o f σ.number.enter (t.foreseen σ.number ρ) ++
      [.instr (.jump (.construct .endIf σ.labels)), .label (.construct .otherwise σ.labels)] ++
      e.reassemble o f (t.siteInside σ.number).enter (e.foreseen (t.siteInside σ.number) ρ) ++
      [.label (.construct .endIf σ.labels)] ++
      rest.reassemble o f (e.siteInside (t.siteInside σ.number)) ρ
  | loop _ c b rest, σ, ρ =>
    o.remark (guardText .loop c) ++ [.label (.construct .loopStart σ.labels)] ++
      testCode (c.lines o.foldConstants (σ.over ρ)) (.construct .loopEnd σ.labels) ++
      b.reassemble o f σ.number.enter (b.foreseen σ.number ρ) ++
      [.instr (.jump (.construct .loopStart σ.labels)), .label (.construct .loopEnd σ.labels)] ++
      rest.reassemble o f (b.siteInside σ.number) ρ

/-- The code of a block with places known in advance is its code if and only if the block captures
nothing. -/
theorem WellFormed.echoes (o : Options) (f : String) {result : Ty} {b : Block} {σ : Site}
    {ρ : Nest Placed} {ν : Outlook} (h : b.WellFormed result σ.types)
    (hσ : σ.Foretold (b.siteAfter σ) ρ ν) :
    Echoes (b.assemble o f σ) (b.reassemble o f σ ρ) (b.captured ν) := by
  induction b generalizing σ ρ ν with
  | done => exact .same _
  | simple a rest ih =>
    obtain ⟨-, hafter, hcode⟩ := hσ.simple o f h h.rest.grows
    exact hcode.append (ih h.rest hafter)
  | ifThen pos c t rest iht ih =>
    obtain ⟨hc, ht, hrest⟩ := wellFormed_ifThen.1 h
    have hgrows : (t.siteInside σ.number).Grows (rest.siteAfter (t.siteInside σ.number)) :=
      WellFormed.grows hrest
    have htest := (hσ.lines o.foldConstants hc).append_same
      [.instr (.cmpImm .ax 0), .instr (.jumpEqual (.construct .endIf σ.labels))]
    have hthen := iht (σ := σ.number.enter) ht (hσ.number.enter ht hgrows)
    exact (((htest.same_append _).append hthen).append_same _).append
      (ih (σ := t.siteInside σ.number) hrest (hσ.number.inside hgrows))
  | ifElse pos c t e rest iht ihe ih =>
    obtain ⟨hc, ht, he, hrest⟩ := wellFormed_ifElse.1 h
    have hgrows' : (e.siteInside (t.siteInside σ.number)).Grows
        (rest.siteAfter (e.siteInside (t.siteInside σ.number))) := WellFormed.grows hrest
    have hgrows := (Site.grows_siteInside (t.siteInside σ.number) e).trans hgrows'
    have htest := (hσ.lines o.foldConstants hc).append_same
      [.instr (.cmpImm .ax 0), .instr (.jumpEqual (.construct .otherwise σ.labels))]
    have hafter := hσ.number.inside hgrows
    have hthen := iht (σ := σ.number.enter) ht (hσ.number.enter ht hgrows)
    have helse := ihe (σ := (t.siteInside σ.number).enter) he (hafter.enter he hgrows')
    exact (((((htest.same_append _).append hthen).append_same _).append helse).append_same _).append
      (ih (σ := e.siteInside (t.siteInside σ.number)) hrest (hafter.inside hgrows'))
  | loop pos c b rest ihb ih =>
    obtain ⟨hc, hb, hrest⟩ := wellFormed_loop.1 h
    have hgrows : (b.siteInside σ.number).Grows (rest.siteAfter (b.siteInside σ.number)) :=
      WellFormed.grows hrest
    have htest := (hσ.lines o.foldConstants hc).append_same
      [.instr (.cmpImm .ax 0), .instr (.jumpEqual (.construct .loopEnd σ.labels))]
    have hbody := ihb (σ := σ.number.enter) hb (hσ.number.enter hb hgrows)
    exact (((htest.same_append _).append hbody).append_same _).append
      (ih (σ := b.siteInside σ.number) hrest (hσ.number.inside hgrows))

end Block

end BlockLang
