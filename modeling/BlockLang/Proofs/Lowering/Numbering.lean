import BlockLang.Proofs.Assembly.Reserved
import BlockLang.Proofs.Lowering.Totality
import BlockLang.Proofs.Machine.Basic

/-!
# Numbered labels in generated code

What generated code looks like to someone who reads its labels and jumps only. A statement without
inner blocks is made of plain lines, and all the labels in the code of a block are those of its
constructs (`Block.exists_construct_of_mem`). The constructs of a block take the numbers from one
bound up to another, each of them its own (`Block.numbered_assemble`), and labels with different
numbers or marks are spelt differently (`Label.construct_text_inj`).
-/

namespace BlockLang

/-! ### The spelling of labels -/

namespace Label

/-- Labels of constructs that are spelt alike mark the same point of the same construct. -/
theorem construct_text_inj {m m' : Mark} {n n' : Nat}
    (h : (construct m n).text = (construct m' n').text) : m = m' ∧ n = n' := by
  have hstem : m = m' := by
    -- no stem is the start of another one
    have hchars := congrArg String.toList h
    cases m <;> cases m' <;> simp [text, Mark.stem] at hchars ⊢
  subst hstem
  rw [text, text, String.append_right_inj] at h
  exact ⟨rfl, toString_nat_inj h⟩

end Label

/-! ### Lines of straight code -/

/-- The label that an instruction may go on at. -/
def Instr.target? : Instr → Option Label
  | jump l => some l
  | jumpEqual l => some l
  | _ => none

/-- The number of bytes by which an instruction lowers the stack for a frame. -/
def Instr.reserved? : Instr → Option Nat
  | reserve n => some n
  | _ => none

/-- The instruction goes on with the next one, and neither makes a frame nor leaves one. -/
structure Instr.Straight (i : Instr) : Prop where
  /-- It has no target. -/
  target : i.target? = none
  /-- It reserves nothing. -/
  reserved : i.reserved? = none
  /-- It does not return. -/
  returns : i ≠ .ret

instance (i : Instr) : Decidable i.Straight :=
  decidable_of_iff (i.target? = none ∧ i.reserved? = none ∧ i ≠ .ret)
    ⟨fun h ↦ ⟨h.1, h.2.1, h.2.2⟩, fun h ↦ ⟨h.target, h.reserved, h.returns⟩⟩

namespace Line

/-- The label that a line may go on at. -/
def target? : Line → Option Label
  | instr i => i.target?
  | label _ => none
  | comment _ => none
  | blank => none

/-- The number of bytes that a line reserves for a frame. -/
def reserved? : Line → Option Nat
  | instr i => i.reserved?
  | label _ => none
  | comment _ => none
  | blank => none

/-- The label of a construct that a line defines. -/
def constructLabel? : Line → Option Label
  | label (.construct m n) => some (.construct m n)
  | label (.named _) => none
  | label (.exit _) => none
  | instr _ => none
  | comment _ => none
  | blank => none

/-- The line neither defines a label nor goes on at one, other than the end of the function `f`, and
it neither makes a frame nor leaves one. -/
structure Plain (f : String) (line : Line) : Prop where
  /-- It defines no label. -/
  label : line.labelText? = none
  /-- If it goes on at a label, this is the end of the function. -/
  target : ∀ l, line.target? = some l → l = .exit f
  /-- It reserves nothing. -/
  reserved : line.reserved? = none
  /-- It does not return. -/
  returns : line ≠ .instr .ret

end Line

theorem plain_remark (f : String) (o : Options) (text : String) :
    ∀ line ∈ o.remark text, line.Plain f := by
  intro line hline
  rw [Options.remark] at hline
  split at hline
  · rw [List.mem_singleton.1 hline]
    exact ⟨rfl, fun l h ↦ (by cases h), rfl, by simp⟩
  · exact absurd hline List.not_mem_nil

/-- A straight instruction is a plain line. -/
theorem plain_instr {f : String} {i : Instr} (h : i.Straight) : (Line.instr i).Plain f := by
  refine ⟨rfl, fun l hl ↦ ?_, h.reserved, fun hret ↦ h.returns (Line.instr.inj hret)⟩
  have hnone : i.target? = none := h.target
  rw [show i.target? = some l from hl] at hnone
  cases hnone

theorem straight_loadAcc (ty : Ty) (m : Mem) : (loadAcc ty m).Straight := by
  rw [loadAcc]
  split <;> exact ⟨rfl, rfl, by simp⟩

theorem straight_storeAcc (ty : Ty) (m : Mem) : (storeAcc ty m).Straight :=
  ⟨rfl, rfl, by simp [storeAcc]⟩

/-- The code of an expression is straight. -/
theorem Expr.straight_assemble (fold : Bool) (π : String → Option Placed) (e : Expr) :
    ∀ i ∈ e.assemble fold π, i.Straight := by
  induction e with
  | num p v => exact List.forall_mem_singleton.2 ⟨rfl, rfl, by simp⟩
  | bool p b => exact List.forall_mem_singleton.2 ⟨rfl, rfl, by simp⟩
  | var p x =>
    rw [assemble]
    rcases π x with - | q
    · simp
    · simp [straight_loadAcc]
  | not p e ih =>
    rw [assemble]
    rcases (not p e).foldedValue? fold with - | v
    · rw [List.forall_mem_append]
      exact ⟨ih, by decide⟩
    · exact List.forall_mem_singleton.2 ⟨rfl, rfl, by simp⟩
  | binary p op l r ihl ihr =>
    have hop : ∀ i ∈ op.code, i.Straight := by cases op <;> decide
    rw [assemble]
    rcases (binary p op l r).foldedValue? fold with - | v
    · simp only [List.forall_mem_append, List.forall_mem_singleton]
      exact ⟨⟨⟨⟨ihl, by decide⟩, ihr⟩, by decide⟩, hop⟩
    · exact List.forall_mem_singleton.2 ⟨rfl, rfl, by simp⟩

theorem Expr.plain_lines (f : String) (fold : Bool) (σ : Site) (e : Expr) :
    ∀ line ∈ e.lines fold σ, line.Plain f := by
  intro line hline
  obtain ⟨i, hi, rfl⟩ := List.mem_map.1 hline
  exact plain_instr (e.straight_assemble fold _ i hi)

theorem Declarator.plain_assemble (f : String) (fold : Bool) (σ : Site) (ty : Ty) (v : Declarator) :
    ∀ line ∈ v.assemble fold σ ty, line.Plain f := by
  rw [assemble]
  rcases v.init with - | e
  · exact List.forall_mem_singleton.2 (plain_instr ⟨rfl, rfl, by simp⟩)
  · simp only [Expr.startCode]
    rcases e.startWord? fold with - | w
    · simp only [List.forall_mem_append, List.forall_mem_singleton]
      exact ⟨e.plain_lines f fold σ, plain_instr (straight_storeAcc _ _)⟩
    · exact List.forall_mem_singleton.2 (plain_instr ⟨rfl, rfl, by simp⟩)

theorem plain_assembleAll (f : String) (fold : Bool) (ty : Ty) (vs : List Declarator) (σ : Site) :
    ∀ line ∈ assembleAll fold ty vs σ, line.Plain f := by
  induction vs generalizing σ with
  | nil => exact fun line hline ↦ absurd hline List.not_mem_nil
  | cons v vs ih =>
    rw [assembleAll, List.forall_mem_append]
    exact ⟨v.plain_assemble f fold σ ty, ih _⟩

/-- A statement without inner blocks goes on at the end of the function or with the next one. -/
theorem Simple.plain_assemble (o : Options) (f : String) (σ : Site) (a : Simple) :
    ∀ line ∈ a.assemble o f σ, line.Plain f := by
  have hjump : (Line.instr (.jump (.exit f))).Plain f :=
    ⟨rfl, fun l hl ↦ (Option.some.inj hl).symm, rfl, by simp⟩
  rw [assemble, List.forall_mem_append]
  refine ⟨plain_remark f o _, ?_⟩
  cases a with
  | declare d => exact plain_assembleAll f _ d.ty d.vars σ
  | assign pos x e =>
    rw [body, List.forall_mem_append]
    refine ⟨e.plain_lines f _ σ, ?_⟩
    rw [Site.storeCode]
    rcases σ.places.find? x with - | q
    · exact fun line hline ↦ absurd hline List.not_mem_nil
    · exact List.forall_mem_singleton.2 (plain_instr (straight_storeAcc _ _))
  | ret pos value =>
    cases value with
    | none =>
      rw [body, List.forall_mem_cons, List.forall_mem_singleton]
      exact ⟨plain_instr ⟨rfl, rfl, by simp⟩, hjump⟩
    | some e =>
      rw [body, List.forall_mem_append, List.forall_mem_singleton]
      exact ⟨e.plain_lines f _ σ, hjump⟩
  | eval pos e => exact e.plain_lines f _ σ

theorem label_notMem_of_plain {f : String} {code : List Line} (h : ∀ line ∈ code, line.Plain f)
    {l : Label} : Line.label l ∉ code :=
  fun hl ↦ by cases (h _ hl).label

/-- What holds of plain lines and of the labels and jumps of constructs holds of every line of a
block. -/
theorem Block.forall_mem_assemble {P : Line → Prop} {o : Options} {f : String} {b : Block}
    {σ : Site} (hplain : ∀ line, line.Plain f → P line)
    (hlabel : ∀ m n, P (.label (.construct m n)))
    (hjump : ∀ m n, P (.instr (.jump (.construct m n))))
    (hjumpEqual : ∀ m n, P (.instr (.jumpEqual (.construct m n)))) :
    ∀ line ∈ b.assemble o f σ, P line := by
  have hremark : ∀ text, ∀ line ∈ o.remark text, P line :=
    fun text line hline ↦ hplain line (plain_remark f o text line hline)
  have htest : ∀ (c : Expr) (σ : Site) (m : Mark) (n : Nat),
      ∀ line ∈ testCode (c.lines o.foldConstants σ) (.construct m n), P line := by
    intro c σ m n
    rw [testCode, List.forall_mem_append, List.forall_mem_cons, List.forall_mem_singleton]
    exact ⟨fun line hline ↦ hplain line (c.plain_lines f _ σ line hline),
      hplain _ (plain_instr ⟨rfl, rfl, by simp⟩), hjumpEqual m n⟩
  induction b generalizing σ with
  | done => exact fun line hline ↦ absurd hline List.not_mem_nil
  | simple a rest ih =>
    rw [assemble, List.forall_mem_append]
    exact ⟨fun line hline ↦ hplain line (a.plain_assemble o f σ line hline), ih⟩
  | ifThen pos c t rest iht ih =>
    simp only [assemble, List.forall_mem_append, List.forall_mem_singleton]
    exact ⟨⟨⟨⟨hremark _, htest c σ _ _⟩, iht⟩, hlabel _ _⟩, ih⟩
  | ifElse pos c t e rest iht ihe ih =>
    simp only [assemble, List.forall_mem_append, List.forall_mem_cons, List.not_mem_nil,
      false_imp_iff, implies_true, and_true]
    exact ⟨⟨⟨⟨⟨⟨hremark _, htest c σ _ _⟩, iht⟩, hjump _ _, hlabel _ _⟩, ihe⟩, hlabel _ _⟩, ih⟩
  | loop pos c b rest ihb ih =>
    simp only [assemble, List.forall_mem_append, List.forall_mem_cons, List.not_mem_nil,
      false_imp_iff, implies_true, and_true]
    exact ⟨⟨⟨⟨⟨hremark _, hlabel _ _⟩, htest c σ _ _⟩, ihb⟩, hjump _ _, hlabel _ _⟩, ih⟩

/-- The labels in the code of a block are labels of constructs. -/
theorem Block.exists_construct_of_mem {o : Options} {f : String} {b : Block} {σ : Site} {l : Label}
    (h : Line.label l ∈ b.assemble o f σ) : ∃ m n, l = .construct m n := by
  refine Block.forall_mem_assemble
    (P := fun line ↦ ∀ l, line = .label l → ∃ m n, l = .construct m n) (fun line hline l hl ↦ ?_)
    (fun m n l hl ↦ ?_) (fun m n l hl ↦ ?_) (fun m n l hl ↦ ?_) _ h l rfl
  · rw [hl] at hline
    cases hline.label
  · exact ⟨m, n, (Line.label.inj hl).symm⟩
  · cases hl
  · cases hl

/-! ### The numbers of constructs -/

/-- How many constructs a block holds, at any depth. -/
def Block.constructCount : Block → Nat
  | done => 0
  | simple _ rest => rest.constructCount
  | ifThen _ _ t rest => 1 + (t.constructCount + rest.constructCount)
  | ifElse _ _ t e rest => 1 + (t.constructCount + (e.constructCount + rest.constructCount))
  | loop _ _ b rest => 1 + (b.constructCount + rest.constructCount)

theorem Site.labels_declareAll (σ : Site) (ty : Ty) (vs : List Declarator) :
    (σ.declareAll ty vs).labels = σ.labels := by
  induction vs generalizing σ with
  | nil => rfl
  | cons v vs ih => exact ih (σ.declare v.name ty)

theorem Simple.labels_siteAfter (a : Simple) (σ : Site) : (a.siteAfter σ).labels = σ.labels := by
  cases a with
  | declare d => exact σ.labels_declareAll d.ty d.vars
  | assign => rfl
  | ret => rfl
  | eval => rfl

/-- Every construct takes one number. -/
theorem Block.labels_siteAfter (b : Block) (σ : Site) :
    (b.siteAfter σ).labels = σ.labels + b.constructCount := by
  induction b generalizing σ with
  | done => rfl
  | simple a rest ih => rw [siteAfter, ih, a.labels_siteAfter, constructCount]
  | ifThen pos c t rest iht ih =>
    have ht : (t.siteInside σ.number).labels = σ.labels + 1 + t.constructCount :=
      iht σ.number.enter
    have hrest := ih (t.siteInside σ.number)
    rw [constructCount, siteAfter]
    exact hrest.trans (by omega)
  | ifElse pos c t e rest iht ihe ih =>
    have ht : (t.siteInside σ.number).labels = σ.labels + 1 + t.constructCount :=
      iht σ.number.enter
    have he : (e.siteInside (t.siteInside σ.number)).labels =
        (t.siteInside σ.number).labels + e.constructCount := ihe (t.siteInside σ.number).enter
    have hrest := ih (e.siteInside (t.siteInside σ.number))
    rw [constructCount, siteAfter]
    exact hrest.trans (by omega)
  | loop pos c b rest ihb ih =>
    have hb : (b.siteInside σ.number).labels = σ.labels + 1 + b.constructCount :=
      ihb σ.number.enter
    have hrest := ih (b.siteInside σ.number)
    rw [constructCount, siteAfter]
    exact hrest.trans (by omega)

theorem Block.labels_siteInside (b : Block) (σ : Site) :
    (b.siteInside σ).labels = σ.labels + b.constructCount :=
  b.labels_siteAfter σ.enter

/-- Different labels of constructs, which bear some of the `count` numbers from `first` on. -/
structure Numbered (first count : Nat) (ls : List Label) : Prop where
  /-- They are different. -/
  nodup : ls.Nodup
  /-- They are labels of constructs with such numbers. -/
  range : ∀ l ∈ ls, ∃ m n, l = .construct m n ∧ first ≤ n ∧ n < first + count

namespace Numbered

variable {first count count' : Nat} {ls ls' : List Label}

theorem nil (first : Nat) : Numbered first 0 [] :=
  ⟨List.nodup_nil, fun _ hl ↦ absurd hl List.not_mem_nil⟩

/-- Labels with the next numbers are different from those before. -/
theorem append (h : Numbered first count ls) (h' : Numbered (first + count) count' ls') :
    Numbered first (count + count') (ls ++ ls') := by
  refine ⟨List.nodup_append.2 ⟨h.nodup, h'.nodup, ?_⟩, ?_⟩
  · rintro l hl l' hl' rfl
    obtain ⟨m, n, rfl, -, hlt⟩ := h.range l hl
    obtain ⟨m', n', heq, hle, -⟩ := h'.range _ hl'
    obtain ⟨-, rfl⟩ := Label.construct.inj heq
    omega
  · intro l hl
    rcases List.mem_append.1 hl with hl | hl
    · obtain ⟨m, n, rfl, hle, hlt⟩ := h.range l hl
      exact ⟨m, n, rfl, hle, by omega⟩
    · obtain ⟨m, n, rfl, hle, hlt⟩ := h'.range l hl
      exact ⟨m, n, rfl, by omega, by omega⟩

theorem of_perm (h : Numbered first count ls) (hperm : ls'.Perm ls) : Numbered first count ls' :=
  ⟨hperm.nodup_iff.2 h.nodup, fun l hl ↦ h.range l (hperm.mem_iff.1 hl)⟩

/-- The labels of one construct. -/
theorem own (n : Nat) (marks : List Mark) (h : marks.Nodup) :
    Numbered n 1 (marks.map (.construct · n)) := by
  refine ⟨h.map fun m m' heq ↦ (Label.construct.inj heq).1, fun l hl ↦ ?_⟩
  obtain ⟨m, -, rfl⟩ := List.mem_map.1 hl
  exact ⟨m, n, rfl, Nat.le_refl n, Nat.lt_succ_self n⟩

/-- Numbered labels are also spelt differently. -/
theorem nodup_text (h : Numbered first count ls) : (ls.map Label.text).Nodup := by
  refine h.nodup.map_on fun l hl l' hl' htext ↦ ?_
  obtain ⟨m, n, rfl, -⟩ := h.range l hl
  obtain ⟨m', n', rfl, -⟩ := h.range l' hl'
  obtain ⟨rfl, rfl⟩ := Label.construct_text_inj htext
  rfl

end Numbered

/-- The labels of constructs that code defines. -/
def constructLabels (code : List Line) : List Label := code.filterMap Line.constructLabel?

@[simp] theorem constructLabels_nil : constructLabels [] = [] := rfl

@[simp] theorem constructLabels_instr (i : Instr) (code : List Line) :
    constructLabels (.instr i :: code) = constructLabels code := rfl

@[simp] theorem constructLabels_construct (m : Mark) (n : Nat) (code : List Line) :
    constructLabels (.label (.construct m n) :: code) =
      .construct m n :: constructLabels code := rfl

@[simp] theorem constructLabels_append (code code' : List Line) :
    constructLabels (code ++ code') = constructLabels code ++ constructLabels code' :=
  List.filterMap_append

theorem Line.Plain.constructLabel?_eq {f : String} {line : Line} (h : line.Plain f) :
    line.constructLabel? = none := by
  cases line with
  | label l => cases h.label
  | instr => rfl
  | comment => rfl
  | blank => rfl

/-- Plain lines define no labels. -/
theorem constructLabels_of_plain {f : String} {code : List Line}
    (h : ∀ line ∈ code, line.Plain f) : constructLabels code = [] :=
  List.filterMap_eq_nil_iff.2 fun line hline ↦ (h line hline).constructLabel?_eq

@[simp] theorem constructLabels_remark (o : Options) (text : String) :
    constructLabels (o.remark text) = [] :=
  constructLabels_of_plain (plain_remark "" o text)

@[simp] theorem constructLabels_testCode (fold : Bool) (σ : Site) (c : Expr) (l : Label) :
    constructLabels (Block.testCode (c.lines fold σ) l) = [] := by
  rw [Block.testCode, constructLabels_append,
    constructLabels_of_plain (c.plain_lines "" fold σ)]
  rfl

/-- The constructs of a block have different labels, with the numbers that the counter runs
through. -/
theorem Block.numbered_assemble (o : Options) (f : String) (b : Block) (σ : Site) :
    Numbered σ.labels b.constructCount (constructLabels (b.assemble o f σ)) := by
  induction b generalizing σ with
  | done => exact .nil _
  | simple a rest ih =>
    have hrest := ih (a.siteAfter σ)
    rw [a.labels_siteAfter] at hrest
    rw [assemble, constructLabels_append, constructLabels_of_plain (a.plain_assemble o f σ)]
    exact hrest
  | ifThen pos c t rest iht ih =>
    -- the labels of the construct itself come first by number, but not in the code
    have hown : Numbered σ.labels 1 _ := .own σ.labels [.endIf] (by decide)
    have hrest := ih (t.siteInside σ.number)
    rw [labels_siteInside] at hrest
    refine (hown.append ((iht σ.number.enter).append hrest)).of_perm
      (List.perm_iff_count.2 fun l ↦ ?_)
    simp [assemble, List.count_cons]
    omega
  | ifElse pos c t e rest iht ihe ih =>
    have hown : Numbered σ.labels 1 _ := .own σ.labels [.otherwise, .endIf] (by decide)
    have he := ihe (t.siteInside σ.number).enter
    rw [show (t.siteInside σ.number).enter.labels = (t.siteInside σ.number).labels from rfl,
      labels_siteInside] at he
    have hrest := ih (e.siteInside (t.siteInside σ.number))
    rw [labels_siteInside, labels_siteInside] at hrest
    refine (hown.append ((iht σ.number.enter).append (he.append hrest))).of_perm
      (List.perm_iff_count.2 fun l ↦ ?_)
    simp [assemble, List.count_cons]
    omega
  | loop pos c b rest ihb ih =>
    have hown : Numbered σ.labels 1 _ := .own σ.labels [.loopStart, .loopEnd] (by decide)
    have hrest := ih (b.siteInside σ.number)
    rw [labels_siteInside] at hrest
    refine (hown.append ((ihb σ.number.enter).append hrest)).of_perm
      (List.perm_iff_count.2 fun l ↦ ?_)
    simp [assemble, List.count_cons]
    omega

end BlockLang
