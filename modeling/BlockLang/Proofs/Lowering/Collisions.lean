import BlockLang.Proofs.Lowering.Labels

/-!
# When the labels of the text section are different

The text section of a compiled program defines the label of the entry, those of the function and of
its end, and those of the constructs. The last are told from one another by their numbers, but the
names of the entry and of the function are free, and nothing keeps them from being spelt like each
other or like a label of a construct: the analysis looks at the names of global variables only.

The labels are different exactly if none of these collisions occurs
(`Program.nodup_textLabels_iff`). Which labels a construct gets can be read off the text
(`Block.labelsFrom`), so the condition is one on the program and its settings.
-/

namespace BlockLang

/-- The labels of the constructs of a block, in the order of the text, where the first construct has
the number `n`. -/
def Block.labelsFrom : Block → Nat → List Label
  | done, _ => []
  | simple _ rest, n => rest.labelsFrom n
  | ifThen _ _ t rest, n =>
    .construct .endIf n :: (t.labelsFrom (n + 1) ++ rest.labelsFrom (n + 1 + t.constructCount))
  | ifElse _ _ t e rest, n =>
    .construct .otherwise n :: .construct .endIf n ::
      (t.labelsFrom (n + 1) ++ (e.labelsFrom (n + 1 + t.constructCount) ++
        rest.labelsFrom (n + 1 + t.constructCount + e.constructCount)))
  | loop _ _ b rest, n =>
    .construct .loopStart n :: .construct .loopEnd n ::
      (b.labelsFrom (n + 1) ++ rest.labelsFrom (n + 1 + b.constructCount))

/-- The labels of the text section, as they are spelt. -/
def Assembly.textLabels (a : Assembly) : List String := a.lines.filterMap Line.labelText?

/-! ### The labels of constructs -/

namespace Block

/-- The code of a block defines the labels that the text gives its constructs. -/
theorem constructLabels_perm (o : Options) (f : String) (b : Block) (σ : Site) :
    (constructLabels (b.assemble o f σ)).Perm (b.labelsFrom σ.labels) := by
  induction b generalizing σ with
  | done => exact .refl _
  | simple a rest ih =>
    have hrest := ih (a.siteAfter σ)
    rw [a.labels_siteAfter] at hrest
    rw [assemble, constructLabels_append, constructLabels_of_plain (a.plain_assemble o f σ)]
    exact hrest
  | ifThen pos c t rest iht ih =>
    -- the labels of the construct itself come first by number, but not in the code
    have ht : (constructLabels (t.assemble o f σ.number.enter)).Perm
        (t.labelsFrom (σ.labels + 1)) := iht σ.number.enter
    have hrest := ih (t.siteInside σ.number)
    rw [labels_siteInside] at hrest
    refine .trans (List.perm_iff_count.2 fun l ↦ ?_) ((ht.append hrest).cons _)
    simp [assemble, List.count_cons]
    omega
  | ifElse pos c t e rest iht ihe ih =>
    have ht : (constructLabels (t.assemble o f σ.number.enter)).Perm
        (t.labelsFrom (σ.labels + 1)) := iht σ.number.enter
    have he := ihe (t.siteInside σ.number).enter
    rw [show (t.siteInside σ.number).enter.labels = (t.siteInside σ.number).labels from rfl,
      labels_siteInside] at he
    have hrest := ih (e.siteInside (t.siteInside σ.number))
    rw [labels_siteInside, labels_siteInside] at hrest
    refine .trans (List.perm_iff_count.2 fun l ↦ ?_)
      (((ht.append (he.append hrest)).cons _).cons _)
    simp [assemble, List.count_cons]
    omega
  | loop pos c b rest ihb ih =>
    have hb : (constructLabels (b.assemble o f σ.number.enter)).Perm
        (b.labelsFrom (σ.labels + 1)) := ihb σ.number.enter
    have hrest := ih (b.siteInside σ.number)
    rw [labels_siteInside] at hrest
    refine .trans (List.perm_iff_count.2 fun l ↦ ?_) (((hb.append hrest).cons _).cons _)
    simp [assemble, List.count_cons]
    omega

/-- The code of a block defines no labels but those of its constructs. -/
theorem filterMap_labelText?_eq (o : Options) (f : String) (b : Block) (σ : Site) :
    (b.assemble o f σ).filterMap Line.labelText? =
      (constructLabels (b.assemble o f σ)).map Label.text := by
  have hline : ∀ line ∈ b.assemble o f σ,
      line.labelText? = line.constructLabel?.map Label.text := by
    refine forall_mem_assemble (f := f) (fun line hplain ↦ ?_) (fun _ _ ↦ rfl) (fun _ _ ↦ rfl)
      fun _ _ ↦ rfl
    rw [hplain.label, hplain.constructLabel?_eq]
    rfl
  rw [constructLabels, List.map_filterMap]
  exact List.filterMap_congr hline

/-- The constructs of a block have different labels. -/
theorem numbered_labelsFrom (b : Block) (n : Nat) :
    Numbered n b.constructCount (b.labelsFrom n) :=
  (b.numbered_assemble {} "" { labels := n }).of_perm
    (b.constructLabels_perm {} "" { labels := n }).symm

end Block

/-- The end of a function is spelt like no label of a construct: the latter end in a digit. -/
theorem Label.text_exit_ne_text_construct (f : String) (m : Mark) (n : Nat) :
    (exit f).text ≠ (construct m n).text := by
  intro heq
  have hlast := congrArg (fun x ↦ x.toList.getLast?) heq
  have hne : Nat.toDigits 10 n ≠ [] := Nat.toDigits_ne_nil
  simp only [text, exitSuffix, String.toList_append, toList_toString_nat,
    List.getLast?_append_of_ne_nil _ hne,
    List.getLast?_eq_some_getLast hne] at hlast
  have ht : (Nat.toDigits 10 n).getLast hne = 't' := by simpa using hlast.symm
  have hdigit : ((Nat.toDigits 10 n).getLast hne).isDigit = true :=
    isDigit_of_mem_toDigits_ten _ (List.getLast_mem hne)
  rw [ht] at hdigit
  cases hdigit

/-! ### Programs -/

theorem Site.labels_declareParams (σ : Site) (ps : List Param) :
    (σ.declareParams ps).labels = σ.labels := by
  induction ps generalizing σ with
  | nil => rfl
  | cons q ps ih => exact ih (σ.declare q.name q.ty)

namespace Program

/-- The labels of the text section are those of the entry, of the function and of its end, and those
of the constructs. -/
theorem textLabels_perm (o : Options) (p : Program) :
    (p.assembled o).textLabels.Perm
      (o.entryLabel :: p.function.name :: (p.function.name ++ exitSuffix) ::
        (p.function.body.labelsFrom 0).map Label.text) := by
  have hstub : (p.assembled o).stub.filterMap Line.labelText? = [o.entryLabel] := rfl
  have hprologue : (prologue p.function.name (p.function.frameBytes o)).filterMap
      Line.labelText? = [p.function.name] := by
    rw [prologue]
    split <;> rfl
  have hparams : (assembleParams 0 p.function.params p.functionSite.enter).filterMap
      Line.labelText? = [] :=
    List.filterMap_eq_nil_iff.2 fun line hline ↦ (plain_assembleParams "" _ _ _ line hline).label
  have hepilogue : (epilogue p.function.name p.function.body.alwaysReturns).filterMap
      Line.labelText? = [p.function.name ++ exitSuffix] := by
    rw [epilogue]
    split <;> rfl
  have hlabels : (p.function.bodySite p.functionSite).labels = 0 := by
    rw [Function.bodySite, Site.labels_declareParams, p.functionSite_eq]
    rfl
  have hbody := p.function.body.constructLabels_perm o p.function.name
    (p.function.bodySite p.functionSite)
  rw [hlabels] at hbody
  rw [Assembly.textLabels, Assembly.lines, List.filterMap_append, hstub, assembled,
    Function.assemble]
  simp only [List.filterMap_append, hprologue, hparams, hepilogue, List.nil_append,
    List.append_nil, Block.filterMap_labelText?_eq, List.cons_append]
  exact .cons _ (.cons _ (List.perm_append_comm.trans ((hbody.map Label.text).cons _)))

/-- The text section of a compiled program defines the label of the entry, those of the function and
of its end, and those of the constructs. They are spelt differently exactly if the label of the
entry is neither that of the function nor that of its end, and no construct has a label that is
spelt like the entry or the function. -/
theorem nodup_textLabels_iff (o : Options) (p : Program) (a : Assembly)
    (h : (p.compile o).assembly = some a) :
    a.textLabels.Perm
        (o.entryLabel :: p.function.name :: (p.function.name ++ exitSuffix) ::
          (p.function.body.labelsFrom 0).map Label.text) ∧
      (a.textLabels.Nodup ↔
        o.entryLabel ≠ p.function.name ∧ o.entryLabel ≠ p.function.name ++ exitSuffix ∧
          ∀ l ∈ p.function.body.labelsFrom 0,
            l.text ≠ o.entryLabel ∧ l.text ≠ p.function.name) := by
  obtain ⟨-, rfl⟩ := clean_of_compile h
  have hperm := p.textLabels_perm o
  refine ⟨hperm, hperm.nodup_iff.trans ?_⟩
  have hname : p.function.name ≠ p.function.name ++ exitSuffix := by
    intro heq
    have hlength := congrArg String.length heq
    rw [String.length_append] at hlength
    have hsuffix : exitSuffix.length = 5 := by decide
    omega
  have hexit : p.function.name ++ exitSuffix ∉
      (p.function.body.labelsFrom 0).map Label.text := by
    rw [List.mem_map]
    rintro ⟨l, hl, htext⟩
    obtain ⟨m, n, rfl, -⟩ := (p.function.body.numbered_labelsFrom 0).range l hl
    exact Label.text_exit_ne_text_construct p.function.name m n htext.symm
  have hnodup := (p.function.body.numbered_labelsFrom 0).nodup_text
  simp only [List.nodup_cons, List.mem_cons, not_or, hname, hexit, hnodup, not_false_eq_true,
    true_and, and_true, List.mem_map, not_exists, not_and]
  constructor
  · rintro ⟨⟨hentry, hend, hconstruct⟩, hfunction⟩
    exact ⟨hentry, hend, fun l hl ↦ ⟨hconstruct l hl, hfunction l hl⟩⟩
  · rintro ⟨hentry, hend, hconstruct⟩
    exact ⟨⟨hentry, hend, fun l hl ↦ (hconstruct l hl).1⟩, fun l hl ↦ (hconstruct l hl).2⟩

theorem textLabels_halving :
    ∃ a, (halving.compile {}).assembly = some a ∧ a.textLabels.Nodup ∧
      a.textLabels.Perm ["_start", "f", "f_exit", "while_start_0", "while_end_0"] := by
  have hcompile : (halving.compile {}).assembly = some (halving.assembled {}) := by decide +kernel
  obtain ⟨hperm, hiff⟩ := nodup_textLabels_iff {} halving _ hcompile
  exact ⟨_, hcompile, hiff.2 (by decide +kernel), hperm⟩

/-- A program whose function has the name of the default entry label. -/
def selfStarting : Program where
  function :=
    { returnTy := .int
      name := "_start"
      body := .simple (.ret {} (some (.num {} 0))) .done }

/-- The function of this program and its entry have the same label. -/
theorem textLabels_selfStarting :
    ∃ a, (selfStarting.compile {}).assembly = some a ∧ ¬a.textLabels.Nodup ∧
      a.textLabels = ["_start", "_start", "_start_exit"] := by
  have hcompile : (selfStarting.compile {}).assembly = some (selfStarting.assembled {}) := by
    decide +kernel
  exact ⟨_, hcompile, by decide +kernel, by decide +kernel⟩

end Program

end BlockLang
