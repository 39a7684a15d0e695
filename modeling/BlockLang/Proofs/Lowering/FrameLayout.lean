import BlockLang.Proofs.Correctness.Calls
import BlockLang.Proofs.Lowering.Labels
import BlockLang.Proofs.Lowering.Placement
import Mathlib.Order.Interval.Finset.Nat

/-!
# The layout of the frame

After a compilation the variables of the outermost scope have cells of the data section, and those
of all other scopes have slots of the frame. The slots follow the order of the text, whatever blocks
the variables are in: each ends where the slots before it and its own bytes end. So no two share a
byte, and all fit in the frame that the code reserves (`Program.frame_of_compile`).

Two walks over the text meet here. The size of the frame is computed from the declarations of the
body, and the slots are handed out in the order in which code generation passes the scopes.
-/

namespace BlockLang

/-! ### The variables of the scopes of a tree -/

/-- The bytes of the frame that a variable occupies, as distances from its base. -/
def Entry.bytes (e : Entry) : Finset Nat :=
  match e.place with
  | some (.slot offset, size) => Finset.Ico (offset - size) offset
  | some (.cell, _) => ∅
  | none => ∅

/-- The variables of a scope, in order. -/
def ScopeInfo.entries (s : ScopeInfo) : List Entry :=
  s.scope.symbols.entries.map fun e ↦ e.2.entry s.scope.id e.1

/-- The variables of the outermost scope. -/
def ScopeTree.outermostEntries (t : ScopeTree) : List Entry :=
  (t.infos.filter fun s ↦ s.isGlobal).flatMap ScopeInfo.entries

/-- The variables of all other scopes. -/
def ScopeTree.innerEntries (t : ScopeTree) : List Entry :=
  (t.infos.filter fun s ↦ !s.isGlobal).flatMap ScopeInfo.entries

theorem Forest.coe_entries_infos (F : Forest) (parent : Option Nat) (level : Nat) :
    ((F.infos parent level).flatMap ScopeInfo.entries : Multiset Entry) = F.inventory := by
  induction F generalizing parent level with
  | nil => rfl
  | cons s i l ihi ihl =>
    rw [infos, List.flatMap_cons, List.flatMap_append, ← Multiset.coe_add, ← Multiset.coe_add, ihi,
      ihl, inventory, add_assoc]
    rfl

theorem Forest.isGlobal_infos {F : Forest} {parent level : Nat} :
    ∀ s ∈ F.infos (some parent) level, s.isGlobal = false := by
  induction F generalizing parent level with
  | nil => exact fun s hs ↦ absurd hs List.not_mem_nil
  | cons s i l ihi ihl =>
    rw [infos, List.forall_mem_cons, List.forall_mem_append]
    exact ⟨rfl, ihi, ihl⟩

namespace ScopeTree

variable {t : ScopeTree}

theorem infos_of_outer (h : t.outer = []) :
    t.infos = ⟨t.here, none, t.inner.ids, 0⟩ :: t.inner.infos (some t.here.id) 1 := by
  have hroot : t.root = (t.here, t.inner) := by rw [root, h, unwind]
  rw [infos, whole, hroot, Forest.infos, Forest.infos, List.append_nil]

theorem coe_outermostEntries (h : t.outer = []) :
    (t.outermostEntries : Multiset Entry) = t.here.inventory := by
  have hinner : (t.inner.infos (some t.here.id) 1).filter (fun s ↦ s.isGlobal) = [] :=
    List.filter_eq_nil_iff.2 fun s hs ↦ by simp [Forest.isGlobal_infos s hs]
  rw [outermostEntries, infos_of_outer h, List.filter_cons_of_pos rfl, hinner, List.flatMap_cons,
    List.flatMap_nil, List.append_nil]
  rfl

theorem coe_innerEntries (h : t.outer = []) :
    (t.innerEntries : Multiset Entry) = t.inner.inventory := by
  have hinner : (t.inner.infos (some t.here.id) 1).filter (fun s ↦ !s.isGlobal) =
      t.inner.infos (some t.here.id) 1 :=
    List.filter_eq_self.2 fun s hs ↦ by simp [Forest.isGlobal_infos s hs]
  rw [innerEntries, infos_of_outer h, List.filter_cons_of_neg (by simp [ScopeInfo.isGlobal]),
    hinner, Forest.coe_entries_infos]

theorem scope_of_mem_here {e : Entry} (he : e ∈ t.here.inventory) : e.scope = t.here.id := by
  obtain ⟨sym, -, rfl⟩ := List.mem_map.1 he
  rfl

end ScopeTree

theorem SymbolTable.Declares.exists_entry {T : SymbolTable} {x : String} {ty : Ty}
    (h : T.Declares x ty) (scope : Nat) : ∃ e ∈ T.inventory scope, e.key = (scope, x) := by
  obtain ⟨sym, hsym, -, -⟩ := h
  obtain ⟨es, es', hsplit⟩ := exists_split hsym
  refine ⟨sym.entry scope x, ?_, rfl⟩
  rw [inventory, hsplit]
  simp

/-- A collection of variables with different keys, divided in two ways. If the variables of the
first part are those of one scope and have all the keys of the third part, and no variable of the
fourth part is of that scope, then the two ways are the same. -/
private theorem parts_eq (scope : Nat) {A B C D : Multiset Entry} (h : A + B = C + D)
    (hnodup : ((C + D).map Entry.key).Nodup) (hA : ∀ e ∈ A, e.scope = scope)
    (hD : ∀ e ∈ D, e.scope ≠ scope) (hC : ∀ e ∈ C, ∃ e' ∈ A, e'.key = e.key) : A = C ∧ B = D := by
  have hinj : ∀ e ∈ C + D, ∀ e' ∈ C + D, e.key = e'.key → e = e' :=
    fun e he e' he' ↦ Multiset.inj_on_of_nodup_map hnodup e he e' he'
  have hall : (C + D).Nodup := hnodup.of_map _
  have hAC : ∀ e ∈ A, e ∈ C := by
    intro e he
    have hmem : e ∈ C + D := h ▸ Multiset.mem_add.2 (.inl he)
    exact (Multiset.mem_add.1 hmem).resolve_right fun hd ↦ hD e hd (hA e he)
  have hCA : ∀ e ∈ C, e ∈ A := by
    intro e he
    obtain ⟨e', he', hkey⟩ := hC e he
    have hmem' : e' ∈ C + D := Multiset.mem_add.2 (.inl (hAC e' he'))
    exact hinj e' hmem' e (Multiset.mem_add.2 (.inl he)) hkey ▸ he'
  have hnodupA : A.Nodup := Multiset.nodup_of_le (h ▸ Multiset.le_add_right A B) hall
  have hnodupC : C.Nodup := Multiset.nodup_of_le (Multiset.le_add_right C D) hall
  have heq : A = C := (hnodupA.ext hnodupC).2 fun e ↦ ⟨hAC e, hCA e⟩
  subst heq
  exact ⟨rfl, add_left_cancel h⟩

/-! ### Slots -/

/-- The `k`-th slot ends after the bytes of the first `k` variables. -/
theorem slots_eq_mapIdx (taken : Nat) (vs : List Variable) :
    slots taken vs =
      vs.mapIdx fun k v ↦ v.placed (.slot (taken + totalSize (vs.take (k + 1)))) := by
  induction vs generalizing taken with
  | nil => rfl
  | cons v vs ih =>
    rw [slots, List.mapIdx_cons, ih]
    simp only [List.take_succ_cons, totalSize_cons, List.take_zero, totalSize_nil, Nat.add_zero,
      Nat.add_assoc]

/-- Every slot lies in the bytes that are newly taken. -/
theorem slot_range {taken : Nat} {vs : List Variable} {e : Entry} (he : e ∈ slots taken vs) :
    ∃ offset, e.place = some (.slot offset, e.ty.size) ∧ taken + e.ty.size ≤ offset ∧
      offset ≤ taken + totalSize vs := by
  induction vs generalizing taken with
  | nil => exact absurd he List.not_mem_nil
  | cons v vs ih =>
    rw [totalSize_cons]
    rcases List.mem_cons.1 he with rfl | he
    · refine ⟨taken + v.ty.size, rfl, Nat.le_refl _, ?_⟩
      omega
    · obtain ⟨offset, hplace, hlow, hhigh⟩ := ih he
      exact ⟨offset, hplace, by omega, by omega⟩

/-- No two slots share a byte. -/
theorem pairwise_disjoint_slots (taken : Nat) (vs : List Variable) :
    (slots taken vs).Pairwise fun e e' ↦ Disjoint e.bytes e'.bytes := by
  induction vs generalizing taken with
  | nil => exact .nil
  | cons v vs ih =>
    refine .cons (fun e he ↦ ?_) (ih _)
    obtain ⟨offset, hplace, hlow, -⟩ := slot_range he
    have hfirst : (v.placed (.slot (taken + v.ty.size))).bytes =
        Finset.Ico (taken + v.ty.size - v.ty.size) (taken + v.ty.size) := rfl
    have hlater : e.bytes = Finset.Ico (offset - e.ty.size) offset := by rw [Entry.bytes, hplace]
    rw [hfirst, hlater, Finset.disjoint_left]
    intro b hb hb'
    rw [Finset.mem_Ico] at hb hb'
    omega

/-! ### The size of the frame -/

theorem Function.totalSize_locals (f : Function) : totalSize f.locals = f.variableBytes := by
  have hparams : ∀ ps : List Param, totalSize (ps.map fun p ↦ ⟨1, p.name, p.ty⟩) =
      ps.foldr (fun p n ↦ p.ty.size + n) 0 := by
    intro ps
    induction ps with
    | nil => rfl
    | cons p ps ih => rw [List.map_cons, totalSize_cons, ih, List.foldr_cons]
  have hdecls : ∀ ds : List Declaration,
      ((ds.flatMap fun d ↦ d.vars.map fun v ↦ (v.name, d.ty)).map fun v ↦ v.2.size).sum =
        ds.foldr (fun d n ↦ d.bytes + n) 0 := by
    intro ds
    induction ds with
    | nil => rfl
    | cons d ds ih =>
      rw [List.flatMap_cons, List.map_append, List.sum_append, ih, List.foldr_cons,
        Declaration.bytes, List.map_map]
      simp [Function.comp_def, Nat.mul_comm]
  have hbody := congrArg (fun vs ↦ (vs.map fun v : String × Ty ↦ v.2.size).sum)
    (f.body.map_declared 1 2)
  simp only [List.map_map, hdecls] at hbody
  rw [locals, totalSize_append, hparams, variableBytes, ← hbody]
  rfl

theorem Block.WellFormed.storable_declared {result : Ty} {Γ : Context} {b : Block}
    (h : b.WellFormed result Γ) {scope next : Nat} :
    ∀ v ∈ b.declared scope next, v.ty.isStorable := by
  induction h generalizing scope next with
  | done => exact fun v hv ↦ absurd hv List.not_mem_nil
  | @declare _ d _ hd _ ih =>
    refine List.forall_mem_append.2 ⟨fun v hv ↦ ?_, ih⟩
    obtain ⟨w, hw, rfl⟩ := List.mem_map.1 hv
    exact hd.storable (List.ne_nil_of_mem hw)
  | assign _ _ _ ih => exact ih
  | ret _ _ ih => exact ih
  | retVoid _ _ ih => exact ih
  | eval _ _ ih => exact ih
  | ifThen _ _ _ iht ih => exact List.forall_mem_append.2 ⟨iht, ih⟩
  | ifElse _ _ _ _ iht ihe ih =>
    exact List.forall_mem_append.2 ⟨iht, List.forall_mem_append.2 ⟨ihe, ih⟩⟩
  | loop _ _ _ ihb ih => exact List.forall_mem_append.2 ⟨ihb, ih⟩

theorem WellPassed.isStorable {Γ : Context} {ps : List Param} (h : WellPassed Γ ps) :
    ∀ p ∈ ps, p.ty.isStorable := by
  induction h with
  | nil => exact fun p hp ↦ absurd hp List.not_mem_nil
  | cons hty _ _ ih => exact List.forall_mem_cons.2 ⟨hty, ih⟩

theorem Ty.size_pos {t : Ty} (h : t.isStorable) : 0 < t.size := by
  cases t <;> first | decide | cases h

/-- A function has a frame unless it has neither parameters nor variables. -/
theorem Function.WellFormed.frameBytes_eq_zero_iff {o : Options} {Γ : Context} {f : Function}
    (h : f.WellFormed Γ) (hfits : f.FrameFits o) : f.frameBytes o = 0 ↔ f.locals = [] := by
  constructor
  · intro hzero
    have hsize : totalSize f.locals ≤ 0 := by
      rw [f.totalSize_locals, ← hzero]
      exact hfits.variableBytes_le
    rcases hlocals : f.locals with - | ⟨v, vs⟩
    · rfl
    · have hstorable : v.ty.isStorable := by
        have hmem : v ∈ f.locals := hlocals ▸ List.mem_cons_self
        rcases List.mem_append.1 hmem with hmem | hmem
        · obtain ⟨p, hp, rfl⟩ := List.mem_map.1 hmem
          exact h.params.isStorable p hp
        · exact h.body.storable_declared v hmem
      have hpos := Ty.size_pos hstorable
      rw [hlocals, totalSize_cons] at hsize
      omega
  · intro hlocals
    have hbytes : f.variableBytes = 0 := by rw [← f.totalSize_locals, hlocals, totalSize_nil]
    have hmask : ∀ a : UInt32, alignUp 0 a = 0 := by
      intro a
      rw [alignUp, UInt32.zero_add]
      exact UInt32.toBitVec_inj.1 (BitVec.and_not_self _)
    rw [frameBytes, frameSize, hbytes]
    exact congrArg UInt32.toNat (hmask o.alignment)

/-! ### The instruction that reserves the frame -/

theorem Block.reserved?_of_mem_assemble {o : Options} {f : String} {b : Block} {σ : Site} :
    ∀ line ∈ b.assemble o f σ, line.reserved? = none :=
  Block.forall_mem_assemble (f := f) (fun _ hline ↦ hline.reserved) (fun _ _ ↦ rfl) (fun _ _ ↦ rfl)
    fun _ _ ↦ rfl

namespace Program

/-- The frame is reserved once, if there is one. -/
theorem filterMap_reserved?_lines (o : Options) (p : Program) :
    (p.assembled o).lines.filterMap Line.reserved? =
      if p.function.frameBytes o = 0 then [] else [p.function.frameBytes o] := by
  have hparams : (assembleParams 0 p.function.params p.functionSite.enter).filterMap
      Line.reserved? = [] :=
    List.filterMap_eq_nil_iff.2 fun line hline ↦
      (plain_assembleParams "" 0 _ _ line hline).reserved
  have hbody : (p.function.body.assemble o p.function.name
      (p.function.bodySite p.functionSite)).filterMap Line.reserved? = [] :=
    List.filterMap_eq_nil_iff.2 Block.reserved?_of_mem_assemble
  have hstub : (p.assembled o).stub.filterMap Line.reserved? = [] := rfl
  have hepilogue : (epilogue p.function.name p.function.body.alwaysReturns).filterMap
      Line.reserved? = [] := by
    rw [epilogue]
    split <;> rfl
  rw [Assembly.lines, List.filterMap_append, hstub, assembled, Function.assemble]
  simp only [List.filterMap_append, hparams, hbody, hepilogue, List.append_nil, List.nil_append]
  rw [prologue]
  by_cases hframe : p.function.frameBytes o = 0
  · rw [if_neg (by omega), if_pos hframe]
    rfl
  · rw [if_pos (by omega), if_neg hframe]
    rfl

/-- The outermost scope has the global variables and the other scopes have all others. -/
theorem WellFormed.inventory_parts {entry : String} {p : Program} (h : p.WellFormed entry)
    {t : ScopeTree} (houter : t.outer = []) (hid : t.here.id = 0)
    (hdeclares : ∀ d ∈ p.globals, ∀ v ∈ d.vars, t.here.symbols.Declares v.name d.ty)
    (hinventory : t.inventory = ↑(p.globalVariables.map (Variable.placed .cell)) +
      ↑(slots 0 p.function.locals)) :
    t.here.inventory = ↑(p.globalVariables.map (Variable.placed .cell)) ∧
      t.inner.inventory = ↑(slots 0 p.function.locals) := by
  have hsum : t.here.inventory + t.inner.inventory = t.inventory := by
    rw [ScopeTree.inventory, houter]
    exact (add_zero _).symm
  refine parts_eq 0 (hsum.trans hinventory) ?_ (fun e he ↦ ?_) (fun e he ↦ ?_) fun e he ↦ ?_
  · rw [Multiset.coe_add, Multiset.map_coe, List.map_append, List.map_map, map_key_slots,
      Multiset.coe_nodup]
    have hkeys := h.nodup_variables
    rw [List.map_append] at hkeys
    exact hkeys
  · rw [ScopeTree.scope_of_mem_here he, hid]
  · have hkey : e.key ∈ p.function.locals.map Variable.key := by
      rw [← map_key_slots 0]
      exact List.mem_map_of_mem he
    obtain ⟨v, hv, hkey⟩ := List.mem_map.1 hkey
    have hscope : v.scope = e.scope := (Prod.mk.inj hkey).1
    rcases h.function.spread_locals.range v hv with ⟨hone, -⟩ | ⟨htwo, -⟩
    · omega
    · omega
  · obtain ⟨v, hv, rfl⟩ := List.mem_map.1 he
    obtain ⟨d, hd, hv⟩ := List.mem_flatMap.1 hv
    obtain ⟨w, hw, rfl⟩ := List.mem_map.1 hv
    have hentry := (hdeclares d hd w hw).exists_entry t.here.id
    rw [hid] at hentry
    obtain ⟨e, he, hkey⟩ := hentry
    exact ⟨e, by rw [Scope.inventory, hid]; exact he, hkey⟩

/-- The places of the variables of a compiled program. The outermost scope has the global variables,
in cells. The other scopes have the parameters and the variables of the function; in the order of
the text, the slot of each ends after the bytes of all up to it. No two slots share a byte, and no
slot reaches beyond the frame, which the code reserves if there is any parameter or variable. -/
theorem frame_of_compile (o : Options) (p : Program) (a : Assembly)
    (h : (p.compile o).assembly = some a) (hfits : p.function.FrameFits o) :
    (p.compile o).session.scopes.outermostEntries.Perm
        (p.globalVariables.map (Variable.placed .cell)) ∧
      (p.compile o).session.scopes.innerEntries.Perm
        (p.function.locals.mapIdx fun k v ↦
          v.placed (.slot (totalSize (p.function.locals.take (k + 1))))) ∧
      p.function.locals.map (fun v ↦ (v.name, v.ty)) =
        p.function.params.map (fun q ↦ (q.name, q.ty)) ++
          p.function.body.declarations.flatMap (fun d ↦ d.vars.map fun v ↦ (v.name, d.ty)) ∧
      (p.compile o).session.scopes.innerEntries.Pairwise
        (fun e e' ↦ Disjoint e.bytes e'.bytes) ∧
      (∀ e ∈ (p.compile o).session.scopes.innerEntries, ∀ offset size,
        e.place = some (.slot offset, size) → offset ≤ p.function.frameBytes o) ∧
      a.lines.filterMap Line.reserved? =
        if p.function.locals = [] then [] else [p.function.frameBytes o] := by
  obtain ⟨hclean, rfl⟩ := clean_of_compile h
  obtain ⟨hwf, hparts⟩ := wellFormed_of_clean_analyze hclean
  obtain ⟨t, ht, houter, hid, hdeclares, hinventory⟩ := hwf.replay_placed o hparts
  rw [scopes_compile hclean, ht]
  obtain ⟨hcells, hslots⟩ := hwf.inventory_parts houter hid hdeclares hinventory
  have hinner : t.innerEntries.Perm (slots 0 p.function.locals) := by
    rw [← Multiset.coe_eq_coe, ScopeTree.coe_innerEntries houter, hslots]
  refine ⟨?_, ?_, ?_, ?_, ?_, ?_⟩
  · rw [← Multiset.coe_eq_coe, ScopeTree.coe_outermostEntries houter, hcells]
  · have heq := slots_eq_mapIdx 0 p.function.locals
    simp only [Nat.zero_add] at heq
    exact heq ▸ hinner
  · rw [Function.locals, List.map_append, List.map_map, Block.map_declared]
    rfl
  · exact (hinner.pairwise_iff fun h ↦ h.symm).2 (pairwise_disjoint_slots 0 _)
  · intro e he offset size hplace
    obtain ⟨offset', hplace', -, hle⟩ := slot_range (hinner.mem_iff.1 he)
    obtain ⟨hoffset, -⟩ := Prod.mk.inj (Option.some.inj (hplace.symm.trans hplace'))
    obtain rfl := Storage.slot.inj hoffset
    rw [Function.totalSize_locals, Nat.zero_add] at hle
    exact hle.trans hfits.variableBytes_le
  · rw [p.filterMap_reserved?_lines]
    simp only [hwf.function.frameBytes_eq_zero_iff hfits]

/-- The slots of this program are those of its two blocks after that of its parameter. -/
theorem frame_shadowing :
    ∃ a, (shadowing.compile {}).assembly = some a ∧ shadowing.function.FrameFits {} ∧
      (shadowing.compile {}).session.scopes.innerEntries.Perm
        [⟨1, "n", .int, some (.slot 4, 4)⟩, ⟨1, "y", .int, some (.slot 8, 4)⟩,
          ⟨2, "x", .int, some (.slot 12, 4)⟩, ⟨2, "z", .int, some (.slot 16, 4)⟩,
          ⟨3, "x", .int, some (.slot 20, 4)⟩] ∧
      a.lines.filterMap Line.reserved? = [32] := by
  have hcompile : (shadowing.compile {}).assembly = some (shadowing.assembled {}) := by
    decide +kernel
  have hfits : shadowing.function.FrameFits {} := ⟨by decide, by decide⟩
  obtain ⟨-, hslots, -, -, -, hreserved⟩ := frame_of_compile {} shadowing _ hcompile hfits
  exact ⟨_, hcompile, hfits, hslots, hreserved⟩

end Program

end BlockLang
