import BlockLang.Proofs.Scope.Numbering
import BlockLang.Proofs.Scope.Map

/-!
# Scopes are visited again in the order in which they were opened

A sequence of operations that opens and leaves scopes can be repeated on the finished tree: after a
rewind, with a visit in place of each opening, it meets the same scopes step by step
(`ScopeTree.trace_rewind_run`). Nothing says that openings and leavings match, so a scope may be
left too often, or never, and scopes are opened in one that others have been opened in before.

While the sequence is repeated there are two trees, one as it was when the sequence was first
performed and one that has all scopes already. `ScopeTree.Retraces` is the invariant on the two:
both stand at the same scope, and a scope of the second tree has been visited from as often as
scopes have been opened in it in the first. The next scope to be visited is then the next one to be
opened, because scopes opened later only add to the end of the lists of children
(`ScopeTree.Grows`).

Where visits stop is a matter of one tree, in whatever way it was made: the scopes visited since the
last rewind are those that the counters of visits say (`ScopeTree.Recorded`), so a visit goes to the
first child not visited since, and there is none if all have been.
-/

namespace BlockLang

namespace Forest

/-- A forest can be cut wherever it has a scope. -/
theorem exists_cut? {F : Forest} {n i : Nat} (h : F.ids[n]? = some i) :
    ∃ c, F.cut? n = some c ∧ c.scope.id = i := by
  induction F generalizing n with
  | nil => cases h
  | cons s inner l _ ih =>
    rcases n with - | n
    · exact ⟨_, rfl, Option.some.inj h⟩
    · obtain ⟨c, hc, hid⟩ := ih (by simpa [ids] using h)
      exact ⟨_, congrArg (Option.map _) hc, hid⟩

theorem ids_of_cut? {F : Forest} {n : Nat} {c : Forest.Cut} (h : F.cut? n = some c) :
    F.ids[n]? = some c.scope.id := by
  induction F generalizing n c with
  | nil => cases h
  | cons s inner l _ ih =>
    rcases n with - | n
    · obtain rfl := Option.some.inj h
      rfl
    · obtain ⟨c', hc', rfl⟩ := Option.map_eq_some_iff.1 h
      have hlater : l.ids[n]? = some c'.scope.id := ih hc'
      exact hlater

end Forest

namespace ScopeTree

/-! ### What a step shows -/

/-- What an operation that moves through the tree answers. -/
inductive Outcome where
  /-- The number of the scope that was opened or visited, if there is one. -/
  | entered (id : Option Nat)
  /-- Whether there was a scope around the current one. -/
  | left (done : Bool)
  /-- The outermost scope is current again. -/
  | returned
deriving DecidableEq

/-- The answer of an operation, if it is one that moves. -/
def Op.outcome? (t : ScopeTree) : Op → Option Outcome
  | enter name => some (.entered (some (t.enter name).here.id))
  | exit => some (.left t.exit?.isSome)
  | descend => some (.entered (t.descend?.map (·.here.id)))
  | rewind | reset => some .returned
  | declare .. | assign .. | place .. => none

/-- The numbers and the names of the current scope and those around it, the innermost first. -/
def path (t : ScopeTree) : List (Nat × String) := t.chain.map fun s ↦ (s.id, s.name)

/-- For each operation, what it answers and the scopes that are current and around that one when it
is done. -/
def trace (t : ScopeTree) : List Op → List (Option Outcome × List (Nat × String))
  | [] => []
  | op :: ops => (op.outcome? t, (op.apply t).path) :: trace (op.apply t) ops

/-- The trace of the operations that move. -/
def moveTrace (t : ScopeTree) (ops : List Op) : List (Option Outcome × List (Nat × String)) :=
  (t.trace ops).filter (·.1.isSome)

/-- Whether the operation makes another scope current, if it succeeds. -/
def Op.moves : Op → Bool
  | enter _ | exit | descend | rewind | reset => true
  | declare .. | assign .. | place .. => false

/-- Whether the operation is one of those that make a tree, rather than go through it again or start
anew. -/
def Op.builds : Op → Bool
  | enter _ | exit | declare .. | assign .. | place .. => true
  | descend | rewind | reset => false

/-- The operation with a visit in place of an opening. -/
def Op.again : Op → Op
  | enter _ => descend
  | op => op

/-- The numbers of the scopes visited since the last rewind, with those visited before an operation
given. -/
def Op.revisits (t : ScopeTree) (seen : List Nat) : Op → List Nat
  | descend => (t.descend?.map (·.here.id)).toList ++ seen
  | rewind | reset => []
  | enter _ | exit | declare .. | assign .. | place .. => seen

/-- The numbers of the scopes visited since the last rewind, with those visited before the first
operation given. -/
def revisited (t : ScopeTree) (seen : List Nat) : List Op → List Nat
  | [] => seen
  | op :: ops => revisited (op.apply t) (op.revisits t seen) ops

variable {t t' s s' T : ScopeTree}

/-! ### Symbols do not matter -/

theorem keepsVisits_blank : Scope.KeepsVisits Scope.blank := fun _ _ ↦ rfl

theorem path_map_blank (t : ScopeTree) : (t.map Scope.blank).path = t.path := by
  rw [path, path, chain_map, List.map_map]
  rfl

theorem isSome_outcome? (t : ScopeTree) (op : Op) : (op.outcome? t).isSome = op.moves := by
  cases op <;> rfl

theorem outcome?_map_blank (t : ScopeTree) (op : Op) :
    op.outcome? (t.map Scope.blank) = op.outcome? t := by
  cases op with
  | exit => rw [Op.outcome?, Op.outcome?, exit?_map, Option.isSome_map]
  | descend =>
    rw [Op.outcome?, Op.outcome?, descend?_map keepsVisits_blank, Option.map_map]
    rfl
  | enter name => rfl
  | declare x ty value pos => rfl
  | assign x value => rfl
  | place x storage => rfl
  | rewind => rfl
  | reset => rfl

theorem modifyOuter_map_blank {x : String} {f : Symbol → Symbol} {es es' : List Enclosing}
    (h : modifyOuter x f es = some es') :
    es'.map (Enclosing.map Scope.blank) = es.map (Enclosing.map Scope.blank) := by
  induction es generalizing es' with
  | nil => cases h
  | cons e es ih =>
    rw [modifyOuter] at h
    split at h
    · obtain rfl := Option.some.inj h
      rfl
    · obtain ⟨es'', hes, rfl⟩ := Option.map_eq_some_iff.1 h
      rw [List.map_cons, List.map_cons, ih hes]

/-- An operation that does not move changes symbols only. -/
theorem map_blank_apply_of_not_moves {op : Op} (hop : op.moves = false) (t : ScopeTree) :
    (op.apply t).map Scope.blank = t.map Scope.blank := by
  cases op with
  | declare x ty value pos =>
    rw [Op.apply, declare?]
    split <;> rfl
  | assign x value =>
    rw [Op.apply, assign?, modify?]
    split
    · rfl
    · rcases hes : modifyOuter x (Symbol.assign value) t.outer with - | es
      · rfl
      · show ScopeTree.mk _ _ (es.map _) _ = _
        rw [modifyOuter_map_blank hes]
        rfl
  | place x storage =>
    rw [Op.apply, place?]
    split <;> rfl
  | enter name => cases hop
  | exit => cases hop
  | rewind => cases hop
  | descend => cases hop
  | reset => cases hop

/-- An operation that moves does not look at symbols. -/
theorem map_blank_apply_of_moves {op : Op} (hop : op.moves = true) (t : ScopeTree) :
    (op.apply t).map Scope.blank = op.apply (t.map Scope.blank) := by
  cases op with
  | enter name => exact (enter_map (fun _ _ ↦ rfl) t name).symm
  | exit =>
    rw [Op.apply, Op.apply, exit?_map]
    cases t.exit? <;> rfl
  | rewind => exact (rewind_map keepsVisits_blank t).symm
  | descend =>
    rw [Op.apply, Op.apply, descend?_map keepsVisits_blank]
    cases t.descend? <;> rfl
  | reset => rfl
  | declare x ty value pos => cases hop
  | assign x value => cases hop
  | place x storage => cases hop

theorem foldl_apply_map_blank (t : ScopeTree) (ops : List Op) :
    (ops.foldl Op.apply t).map Scope.blank =
      (ops.filter Op.moves).foldl Op.apply (t.map Scope.blank) := by
  induction ops generalizing t with
  | nil => rfl
  | cons op ops ih =>
    rw [List.foldl_cons, ih]
    rcases hop : op.moves with - | -
    · rw [List.filter_cons_of_neg (by simp [hop]), map_blank_apply_of_not_moves hop]
    · rw [List.filter_cons_of_pos hop, List.foldl_cons, map_blank_apply_of_moves hop]

/-- The trace of the moves is that of a tree without symbols. -/
theorem moveTrace_eq (t : ScopeTree) (ops : List Op) :
    t.moveTrace ops = (t.map Scope.blank).trace (ops.filter Op.moves) := by
  induction ops generalizing t with
  | nil => rfl
  | cons op ops ih =>
    rw [moveTrace, trace]
    rcases hop : op.moves with - | -
    · rw [List.filter_cons_of_neg (by simp [isSome_outcome?, hop]),
        List.filter_cons_of_neg (by simp [hop]), ← map_blank_apply_of_not_moves hop]
      exact ih _
    · rw [List.filter_cons_of_pos (by simp [isSome_outcome?, hop]),
        List.filter_cons_of_pos hop, trace, outcome?_map_blank, ← map_blank_apply_of_moves hop,
        path_map_blank]
      exact congrArg _ (ih _)

/-- Two sequences with the same operations at the places where they do not move have the same trace
if they have the same trace of moves. -/
theorem trace_again_eq (hpath : s.path = t.path) {w : List Op}
    (h : s.moveTrace (w.map Op.again) = t.moveTrace w) : s.trace (w.map Op.again) = t.trace w := by
  have hagain : ∀ op : Op, op.again.moves = op.moves := fun op ↦ by cases op <;> rfl
  induction w generalizing s t with
  | nil => rfl
  | cons op w ih =>
    rw [List.map_cons, moveTrace, moveTrace, trace, trace] at h
    rw [List.map_cons, trace, trace]
    rcases hop : op.moves with - | -
    · have hnone : ∀ (u : ScopeTree) (op' : Op), op'.moves = false → op'.outcome? u = none :=
        fun u op' hop' ↦ Option.not_isSome_iff_eq_none.1 (by simp [isSome_outcome?, hop'])
      rw [List.filter_cons_of_neg (by simp [isSome_outcome?, hagain, hop]),
        List.filter_cons_of_neg (by simp [isSome_outcome?, hop])] at h
      have hpath' : (op.again.apply s).path = (op.apply t).path := by
        rw [← path_map_blank, map_blank_apply_of_not_moves ((hagain op).trans hop), path_map_blank,
          hpath, ← path_map_blank t, ← map_blank_apply_of_not_moves hop, path_map_blank]
      rw [hnone s _ ((hagain op).trans hop), hnone t _ hop, hpath', ih hpath' h]
    · rw [List.filter_cons_of_pos (by simp [isSome_outcome?, hagain, hop]),
        List.filter_cons_of_pos (by simp [isSome_outcome?, hop]), List.cons.injEq] at h
      obtain ⟨hstep, hrest⟩ := h
      rw [hstep, ih (congrArg Prod.snd hstep) hrest]

/-! ### Trees that are the same but for visits -/

theorem rewind_congr (h : t'.map Scope.unvisited = t.map Scope.unvisited) :
    t'.rewind = t.rewind := by
  have hroot := congrArg root h
  rw [root_map, root_map, Prod.mk.injEq] at hroot
  obtain ⟨-, -, -, hcount⟩ := ScopeTree.mk.injEq .. ▸ h
  rw [rewind, rewind, hroot.1, hroot.2, hcount]

theorem rewind_rewind (t : ScopeTree) : t.rewind.rewind = t.rewind := by
  show ScopeTree.mk t.root.1.unvisited ((t.root.2.map Scope.unvisited).map Scope.unvisited) [] _ = _
  rw [Forest.map_map]
  rfl

theorem rewind_of_exit? (h : t.exit? = some t') : t'.rewind = t.rewind := by
  obtain ⟨here, inner, outer, count⟩ := t
  cases outer with
  | nil => cases h
  | cons e es =>
    obtain rfl := Option.some.inj h
    rfl

theorem rewind_of_descend? (h : t.descend? = some t') : t'.rewind = t.rewind :=
  (rewind_of_exit? (exit?_of_descend? h)).symm.trans (rewind_congr rfl)

/-- Trees that are the same but for visits have rows that are the same but for visits. -/
theorem exists_info_of_rewind_eq (h : s.rewind = T.rewind) {q : ScopeInfo} (hq : q ∈ T.infos) :
    ∃ r ∈ s.infos, r.scope.id = q.scope.id ∧ r.scope.name = q.scope.name ∧
      r.children = q.children := by
  have hrows : T.infos.map (fun r ↦ { r with scope := r.scope.unvisited }) =
      s.infos.map (fun r ↦ { r with scope := r.scope.unvisited }) := by
    rw [← infos_rewind, ← infos_rewind, h]
  obtain ⟨r, hr, heq⟩ := List.mem_map.1 (hrows ▸ List.mem_map_of_mem hq)
  obtain ⟨hscope, -, hchildren, -⟩ := ScopeInfo.mk.inj heq
  obtain ⟨hid, hname, -⟩ := Scope.mk.inj hscope
  exact ⟨r, hr, hid, hname, hchildren⟩

/-! ### Trees that grow -/

/-- The scopes of `t` are in `T` under the same numbers and names, and children are only added to
the end of those they have in `t`. -/
def Grows (t T : ScopeTree) : Prop :=
  ∀ r ∈ t.infos, ∃ q ∈ T.infos,
    q.scope.id = r.scope.id ∧ q.scope.name = r.scope.name ∧ r.children <+: q.children

theorem Grows.refl (t : ScopeTree) : t.Grows t :=
  fun r hr ↦ ⟨r, hr, rfl, rfl, List.prefix_rfl⟩

theorem Grows.trans (h : t.Grows t') (h' : t'.Grows T) : t.Grows T := by
  intro r hr
  obtain ⟨r', hr', hid, hname, hchildren⟩ := h r hr
  obtain ⟨q, hq, hid', hname', hchildren'⟩ := h' r' hr'
  exact ⟨q, hq, hid'.trans hid, hname'.trans hname, hchildren.trans hchildren'⟩

theorem mem_infos {q : ScopeInfo} : q ∈ t.infos ↔ q = t.current ∨ q ∈ t.others := by
  rw [← Multiset.mem_coe, coe_infos, Multiset.mem_cons]

theorem mem_infos_enter {name : String} {q : ScopeInfo} :
    q ∈ (t.enter name).infos ↔ q = (t.enter name).current ∨
      q = { t.current with children := t.current.children ++ [t.count] } ∨ q ∈ t.others := by
  rw [← Multiset.mem_coe, coe_infos_enter, Multiset.mem_cons, Multiset.mem_cons]
  rfl

theorem grows_enter (t : ScopeTree) (name : String) : t.Grows (t.enter name) := by
  intro r hr
  rcases mem_infos.1 hr with rfl | hr
  · exact ⟨_, mem_infos_enter.2 (.inr (.inl rfl)), rfl, rfl, List.prefix_append _ _⟩
  · exact ⟨r, mem_infos_enter.2 (.inr (.inr hr)), rfl, rfl, List.prefix_rfl⟩

theorem grows_exit? (h : t.exit? = some t') : t.Grows t' := by
  rw [Grows, (infos_exit? h).1]
  exact Grows.refl t

/-- Whether the operation opens or leaves a scope. -/
def Op.travels (op : Op) : Bool := op.moves && op.builds

/-- An operation that opens or leaves a scope. -/
theorem Op.travels_cases {op : Op} (h : op.travels = true) :
    (∃ name, op = .enter name) ∨ op = .exit := by
  cases op with
  | enter name => exact .inl ⟨name, rfl⟩
  | exit => exact .inr rfl
  | declare x ty value pos => cases h
  | assign x value => cases h
  | place x storage => cases h
  | rewind => cases h
  | descend => cases h
  | reset => cases h

theorem grows_foldl {w : List Op} (hw : ∀ op ∈ w, op.travels = true) (t : ScopeTree) :
    t.Grows (w.foldl Op.apply t) := by
  induction w generalizing t with
  | nil => exact .refl t
  | cons op w ih =>
    obtain ⟨hop, hw⟩ := List.forall_mem_cons.1 hw
    refine Grows.trans ?_ (ih hw _)
    rcases Op.travels_cases hop with ⟨name, rfl⟩ | rfl
    · exact grows_enter t name
    · rw [Op.apply]
      rcases he : t.exit? with - | t'
      · exact .refl t
      · exact grows_exit? he

/-! ### Making a tree and going through it again -/

/-- The tree `s` has been gone through as far as `t` has been made: the same scopes are around the
current one, and a scope has been visited from as often as scopes have been opened in it. -/
structure Retraces (t s : ScopeTree) : Prop where
  /-- The current scopes are the same. -/
  path : s.path = t.path
  /-- A scope of `s` has been visited from as often as it has children in `t`, and never if it is
  not in `t` yet. -/
  visited : ∀ q ∈ s.infos, (t.count ≤ q.scope.id ∧ q.scope.visited = 0) ∨
    ∃ r ∈ t.infos, r.scope.id = q.scope.id ∧ q.scope.visited = r.children.length

namespace Retraces

theorem here_eq (h : t.Retraces s) : s.here.id = t.here.id ∧ s.here.name = t.here.name :=
  Prod.mk.inj (List.cons.inj h.path).1

theorem visited_here (h : t.Retraces s) (ht : t.Counted) :
    s.here.visited = t.inner.ids.length := by
  obtain ⟨hid, -⟩ := h.here_eq
  rcases h.visited _ s.current_mem_infos with ⟨hle, -⟩ | ⟨r, hr, hrid, hvisited⟩
  · have hlt : t.here.id < t.count := ht.id_lt t.current_mem_infos
    have hle' : t.count ≤ s.here.id := hle
    omega
  · obtain rfl : r = t.current := ht.row_unique hr t.current_mem_infos (hrid.trans hid)
    exact hvisited

/-- The scope that is visited next is the one that is opened next. -/
theorem enter (h : t.Retraces s) (ht : t.Counted) (hs : s.Numbered) {name : String}
    (hT : (t.enter name).Grows T) (hsame : s.rewind = T.rewind) :
    ∃ s', s.descend? = some s' ∧ s'.here.id = t.count ∧ (t.enter name).Retraces s' := by
  obtain ⟨hid, hname⟩ := h.here_eq
  -- where the visits stand, the list of children goes on with the new scope
  have hnext : s.inner.ids[s.here.visited]? = some t.count := by
    obtain ⟨q, hq, hqid, -, more, hmore⟩ := hT _ (mem_infos_enter.2 (.inr (.inl rfl)))
    obtain ⟨r, hr, hrid, -, hchildren⟩ := exists_info_of_rewind_eq hsame hq
    obtain rfl : r = s.current :=
      hs.counted.row_unique hr s.current_mem_infos ((hrid.trans hqid).trans hid.symm)
    have hids : s.inner.ids = t.inner.ids ++ [t.count] ++ more := hchildren.trans hmore.symm
    rw [hids, h.visited_here ht, List.append_assoc, List.getElem?_append_right le_rfl, Nat.sub_self]
    rfl
  obtain ⟨c, hc, hcid⟩ := Forest.exists_cut? hnext
  obtain ⟨s', hs'⟩ : ∃ s', s.descend? = some s' := ⟨_, congrArg (Option.map _) hc⟩
  have hpath : s'.path = (s'.here.id, s'.here.name) :: s.path ∧ s'.here.id = t.count := by
    rw [descend?, hc] at hs'
    obtain rfl := Option.some.inj hs'
    exact ⟨rfl, hcid⟩
  have hcounted : s'.Counted := by
    have happly := (hs.apply .descend).counted
    rwa [Op.apply, hs'] at happly
  refine ⟨s', hs', hpath.2, ?_, ?_⟩
  · -- the name is the one given to the number in the finished tree
    obtain ⟨q, hq, hqid, hqname, -⟩ := hT _ (t.enter name).current_mem_infos
    obtain ⟨r, hr, hrid, hrname, -⟩ :=
      exists_info_of_rewind_eq ((rewind_of_descend? hs').trans hsame) hq
    obtain rfl : r = s'.current :=
      hcounted.row_unique hr s'.current_mem_infos ((hrid.trans hqid).trans hpath.2.symm)
    rw [hpath.1, h.path]
    exact congrArg (· :: t.path) (Prod.ext hpath.2 (hrname.trans hqname))
  · obtain ⟨rest, hold, hnew⟩ := (edits_descend? hs').1.rows
    intro q hq
    rw [← Multiset.mem_coe, hnew, Multiset.mem_cons] at hq
    rcases hq with rfl | hq
    · right
      refine ⟨_, mem_infos_enter.2 (.inr (.inl rfl)), hid.symm, ?_⟩
      rw [List.length_append, List.length_singleton]
      exact congrArg (· + 1) (h.visited_here ht)
    · have hq' : q ∈ s.infos := by
        rw [← Multiset.mem_coe, hold]
        exact Multiset.mem_cons_of_mem hq
      rcases h.visited q hq' with ⟨hle, hzero⟩ | ⟨r, hr, hrid, hvisited⟩
      · rcases Nat.eq_or_lt_of_le hle with heq | hlt
        · exact .inr ⟨_, mem_infos_enter.2 (.inl rfl), heq, hzero⟩
        · exact .inl ⟨hlt, hzero⟩
      · refine .inr ⟨r, mem_infos_enter.2 (.inr (.inr ?_)), hrid, hvisited⟩
        -- only one row has the number of the current scope
        rcases mem_infos.1 hr with rfl | hr
        · have hnodup := hs.counted
          rw [Counted, hold, Multiset.map_cons] at hnodup
          have hnotMem := (Multiset.nodup_cons.1 (hnodup ▸ Multiset.nodup_range _)).1
          exact absurd (Multiset.mem_map.2 ⟨q, hq, hrid.symm.trans hid.symm⟩) hnotMem
        · exact hr

/-- There is a scope to be left when the tree is gone through again if there was one before. -/
theorem exit? (h : t.Retraces s) : Option.Rel Retraces t.exit? s.exit? := by
  obtain ⟨here, inner, outer, count⟩ := t
  obtain ⟨here', inner', outer', count'⟩ := s
  have hpath := (List.cons.inj h.path).2
  rcases outer with - | ⟨e, es⟩ <;> rcases outer' with - | ⟨e', es'⟩
  · exact .none
  · cases hpath
  · cases hpath
  · exact .some ⟨hpath, h.visited⟩

end Retraces

/-- At the start nothing has been made, and nothing has been visited. -/
theorem retraces_rewind (h : T.Numbered) (hT : ScopeTree.empty.Grows T) :
    ScopeTree.empty.Retraces T.rewind := by
  constructor
  · obtain ⟨q, hq, hid, hname, -⟩ := hT _ ScopeTree.empty.current_mem_infos
    have hroot : T.root.1.id = 0 := ((h.rows _ List.mem_cons_self).outermost rfl).1
    have hrow := h.counted.row_unique (List.mem_cons_self ..) hq (hroot.trans hid.symm)
    have hrootName : T.root.1.name = "global" := (congrArg (·.scope.name) hrow).trans hname
    exact congrArg (fun p ↦ [p]) (Prod.ext hroot hrootName)
  · rw [infos_rewind, List.forall_mem_map]
    intro r hr
    rcases Nat.eq_zero_or_pos r.scope.id with hzero | hpos
    · exact .inr ⟨_, ScopeTree.empty.current_mem_infos, hzero.symm, rfl⟩
    · exact .inl ⟨hpos, rfl⟩

/-- Opening and leaving scopes and then going through the finished tree again shows the same. -/
theorem Retraces.trace_again {w : List Op} (hw : ∀ op ∈ w, op.travels = true) (h : t.Retraces s)
    (ht : t.Numbered) (hs : s.Numbered) (hsame : s.rewind = (w.foldl Op.apply t).rewind) :
    s.trace (w.map Op.again) = t.trace w := by
  induction w generalizing t s with
  | nil => rfl
  | cons op w ih =>
    obtain ⟨hop, hrest⟩ := List.forall_mem_cons.1 hw
    rw [List.map_cons, trace, trace]
    have hs' := hs.apply op.again
    have ht' := ht.apply op
    rw [List.foldl_cons] at hsame
    rcases Op.travels_cases hop with ⟨name, rfl⟩ | rfl
    · obtain ⟨s', hdescend, hid, hnext⟩ := h.enter ht.counted hs (grows_foldl hrest _) hsame
      have happly : (Op.again (.enter name)).apply s = s' := by
        rw [Op.again, Op.apply, hdescend]
        rfl
      have houtcome : (Op.again (.enter name)).outcome? s = (Op.enter name).outcome? t := by
        rw [Op.again, Op.outcome?, Op.outcome?, hdescend, Option.map_some, hid]
        rfl
      rw [happly] at hs'
      rw [houtcome, happly, hnext.path,
        ih hrest hnext ht' hs' ((rewind_of_descend? hdescend).trans hsame)]
      rfl
    · show ((some (.left s.exit?.isSome) : Option Outcome), (Op.exit.apply s).path) ::
        (Op.exit.apply s).trace _ = (some (.left t.exit?.isSome), _) :: _
      have hexit := h.exit?
      have hnext : (Op.exit.apply t).Retraces (Op.exit.apply s) ∧
          (Op.exit.apply s).rewind = s.rewind ∧ s.exit?.isSome = t.exit?.isSome := by
        rw [Op.apply, Op.apply]
        rcases hte : t.exit? with - | t' <;> rcases hse : s.exit? with - | s' <;>
          rw [hte, hse] at hexit
        · exact ⟨h, rfl, rfl⟩
        · cases hexit
        · cases hexit
        · cases hexit with
          | some hnext => exact ⟨hnext, rewind_of_exit? hse, rfl⟩
      obtain ⟨hretraces, hrewind, hdone⟩ := hnext
      rw [hdone, hretraces.path, ih hrest hretraces ht' hs' (hrewind.trans hsame)]

/-! ### Where visits stop -/

/-- The scopes in `seen` are those that the counters of visits say: of the children of a scope,
those that come first. -/
structure Recorded (t : ScopeTree) (seen : List Nat) : Prop where
  /-- There are scopes with these numbers. -/
  lt : ∀ i ∈ seen, i < t.count
  /-- Of the children of a scope, those counted are among them, and no others. -/
  children : ∀ r ∈ t.infos, ∀ c ∈ r.children, c ∈ seen ↔ c ∈ r.children.take r.scope.visited

theorem Numbered.child_lt (h : t.Numbered) {r : ScopeInfo} (hr : r ∈ t.infos) {c : Nat}
    (hc : c ∈ r.children) : c < t.count := by
  obtain ⟨q, hq, rfl, -⟩ := t.whole.child_of_mem_infos none 0 r hr c hc
  exact h.counted.id_lt hq

/-- A scope is a child of one scope only. -/
theorem Numbered.parent_unique (h : t.Numbered) {r r' : ScopeInfo} (hr : r ∈ t.infos)
    (hr' : r' ∈ t.infos) {c : Nat} (hc : c ∈ r.children) (hc' : c ∈ r'.children) : r = r' := by
  obtain ⟨q, hq, hid, hparent⟩ := t.whole.child_of_mem_infos none 0 r hr c hc
  obtain ⟨q', hq', hid', hparent'⟩ := t.whole.child_of_mem_infos none 0 r' hr' c hc'
  obtain rfl := h.counted.row_unique hq hq' (hid.trans hid'.symm)
  exact h.counted.row_unique hr hr' (Option.some.inj (hparent.symm.trans hparent'))

theorem descend?_map_id (t : ScopeTree) :
    t.descend?.map (·.here.id) = t.inner.ids[t.here.visited]? := by
  rw [descend?, Option.map_map]
  rcases hc : t.inner.cut? t.here.visited with - | c
  · rcases hid : t.inner.ids[t.here.visited]? with - | i
    · rfl
    · obtain ⟨c, hc', -⟩ := Forest.exists_cut? hid
      cases hc.symm.trans hc'
  · exact (Forest.ids_of_cut? hc).symm

namespace Recorded

variable {seen : List Nat}

/-- A change of one scope that is not a visit. -/
theorem edit (h : t.Recorded seen) {r : ScopeInfo} {s : Scope} (he : t.Edits t' r s)
    (hvisited : s.visited = r.scope.visited) : t'.Recorded seen := by
  obtain ⟨rest, hold, hnew⟩ := he.rows
  have hrow : ∀ q, q = r ∨ q ∈ rest → q ∈ t.infos := fun q hq ↦ by
    rwa [← Multiset.mem_coe, hold, Multiset.mem_cons]
  constructor
  · rw [he.count]
    exact h.lt
  · intro q hq
    rw [← Multiset.mem_coe, hnew, Multiset.mem_cons] at hq
    rcases hq with rfl | hq
    · rw [hvisited]
      exact h.children r (hrow r (.inl rfl))
    · exact h.children q (hrow q (.inr hq))

theorem enter (h : t.Recorded seen) (ht : t.Numbered) (name : String) :
    (t.enter name).Recorded seen := by
  have hvisited : t.here.visited ≤ t.current.children.length :=
    (ht.rows _ t.current_mem_infos).visited
  constructor
  · exact fun i hi ↦ Nat.lt_succ_of_lt (h.lt i hi)
  · intro q hq c hc
    rcases mem_infos_enter.1 hq with rfl | rfl | hq
    · cases hc
    · show _ ↔ c ∈ (t.current.children ++ [t.count]).take t.here.visited
      rw [List.take_append_of_le_length hvisited]
      rcases List.mem_append.1 hc with hc | hc
      · exact h.children _ t.current_mem_infos c hc
      · -- the new scope has been visited by nobody
        obtain rfl := List.mem_singleton.1 hc
        refine iff_of_false (fun hseen ↦ (h.lt _ hseen).false) fun hmem ↦ ?_
        exact (ht.child_lt t.current_mem_infos (List.mem_of_mem_take hmem)).false
    · exact h.children q (mem_infos.2 (.inr hq)) c hc

theorem descend? (h : t.Recorded seen) (ht : t.Numbered) (he : t.descend? = some t') :
    t'.Recorded (t'.here.id :: seen) := by
  have hnext : t.inner.ids[t.here.visited]? = some t'.here.id := by
    rw [← descend?_map_id, he]
    rfl
  have hmem : t'.here.id ∈ t.current.children := List.mem_of_getElem? hnext
  obtain ⟨hcount, rest, hold, hnew⟩ := (edits_descend? he).1
  have hrest : ∀ q ∈ rest, q ∈ t.infos ∧ q ≠ t.current := fun q hq ↦ by
    have hinfos : q ∈ t.infos := by
      rw [← Multiset.mem_coe, hold]
      exact Multiset.mem_cons_of_mem hq
    refine ⟨hinfos, ?_⟩
    rintro rfl
    have hnodup : (t.infos : Multiset ScopeInfo).Nodup :=
      Multiset.Nodup.of_map _ (ht.counted ▸ Multiset.nodup_range _)
    rw [hold] at hnodup
    exact (Multiset.nodup_cons.1 hnodup).1 hq
  constructor
  · rw [hcount]
    exact List.forall_mem_cons.2 ⟨ht.child_lt t.current_mem_infos hmem, h.lt⟩
  · intro q hq c hc
    rw [← Multiset.mem_coe, hnew, Multiset.mem_cons] at hq
    rcases hq with rfl | hq
    · show _ ↔ c ∈ t.inner.ids.take (t.here.visited + 1)
      have hseen : c ∈ seen ↔ c ∈ t.inner.ids.take t.here.visited :=
        h.children _ t.current_mem_infos c hc
      rw [List.take_add_one, hnext, List.mem_cons, List.mem_append, hseen, or_comm]
      simp
    · obtain ⟨hinfos, hne⟩ := hrest q hq
      have hother : c ≠ t'.here.id := by
        rintro rfl
        exact hne (ht.parent_unique hinfos t.current_mem_infos hc hmem)
      rw [List.mem_cons, or_iff_right hother]
      exact h.children q hinfos c hc

theorem apply (h : t.Recorded seen) (ht : t.Numbered) (op : Op) :
    (op.apply t).Recorded (op.revisits t seen) := by
  cases op with
  | enter name => exact h.enter ht name
  | exit =>
    rw [Op.apply, Op.revisits]
    rcases he : t.exit? with - | t'
    · exact h
    · obtain ⟨hinfos, hcount⟩ := infos_exit? he
      exact ⟨hcount ▸ h.lt, hinfos ▸ h.children⟩
  | declare x ty value pos =>
    rw [Op.apply, Op.revisits]
    rcases he : t.declare? x ty value pos with - | t'
    · exact h
    · exact h.edit (edits_declare? he) rfl
  | assign x value =>
    rw [Op.apply, Op.revisits]
    rcases he : t.assign? x value with - | t'
    · exact h
    · obtain ⟨r, hedit⟩ := edits_modify? he
      exact h.edit hedit rfl
  | place x storage =>
    rw [Op.apply, Op.revisits]
    rcases he : t.place? x storage with - | t'
    · exact h
    · exact h.edit (edits_place? he) rfl
  | rewind =>
    refine ⟨List.forall_mem_nil _, ?_⟩
    show ∀ r ∈ t.rewind.infos, _
    rw [infos_rewind, List.forall_mem_map]
    exact fun r _ c _ ↦ Iff.rfl
  | descend =>
    rw [Op.apply, Op.revisits]
    rcases he : t.descend? with - | t'
    · exact h
    · exact h.descend? ht he
  | reset =>
    refine ⟨List.forall_mem_nil _, fun r hr c hc ↦ ?_⟩
    obtain rfl := List.mem_singleton.1 hr
    cases hc

theorem foldl (h : t.Recorded seen) (ht : t.Numbered) (ops : List Op) :
    (ops.foldl Op.apply t).Recorded (t.revisited seen ops) := by
  induction ops generalizing t seen with
  | nil => exact h
  | cons op ops ih => exact ih (h.apply ht op) (ht.apply op)

theorem empty : ScopeTree.empty.Recorded [] :=
  ⟨List.forall_mem_nil _, fun r hr c hc ↦ by
    obtain rfl := List.mem_singleton.1 hr
    cases hc⟩

/-- A visit goes to the first child not visited since the last rewind. -/
theorem descend?_eq_find? (h : t.Recorded seen) (ht : t.Numbered) :
    t.descend?.map (·.here.id) = t.current.children.find? (· ∉ seen) := by
  have hseen := h.children _ t.current_mem_infos
  have hnodup : t.inner.ids.Nodup :=
    (ht.rows _ t.current_mem_infos).children.imp fun hlt ↦ Nat.ne_of_lt hlt
  have hsplit : t.inner.ids.take t.here.visited ++ t.inner.ids.drop t.here.visited = t.inner.ids :=
    List.take_append_drop ..
  have hbefore : (t.inner.ids.take t.here.visited).find? (· ∉ seen) = none := by
    rw [List.find?_eq_none]
    intro c hc
    simpa using (hseen c (List.mem_of_mem_take hc)).2 hc
  have hfind : t.inner.ids.find? (· ∉ seen) =
      (t.inner.ids.drop t.here.visited).find? (· ∉ seen) := by
    conv_lhs => rw [← hsplit, List.find?_append, hbefore, Option.none_or]
  rw [descend?_map_id]
  show _ = t.inner.ids.find? (· ∉ seen)
  rw [hfind, ← List.head?_drop]
  rcases hafter : t.inner.ids.drop t.here.visited with - | ⟨c, cs⟩
  · rfl
  · -- the first child after those visited is not one of them
    have hc : c ∈ t.inner.ids := List.mem_of_mem_drop (hafter ▸ List.mem_cons_self)
    rw [← hsplit, hafter] at hnodup
    have hnew : c ∉ seen := fun hmem ↦
      (List.nodup_append.1 hnodup).2.2 c ((hseen c hc).1 hmem) c List.mem_cons_self rfl
    rw [List.head?_cons, List.find?_cons_of_pos (by simpa using hnew)]

end Recorded

/-! ### Whole sequences -/

theorem numbered_run (ops : List Op) : (run ops).Numbered := (reachable_run ops).numbered

/-- The finished tree of a sequence that opens and leaves scopes, with operations on symbols between
them, can be gone through again. Rewound, it gives the same answers to the same operations with a
visit in place of each opening, and the same scopes are current step by step; the operations on
symbols need not be the same, and there may be none. And whatever was done to a tree, a visit goes
to the first scope inside the current one that has not been visited since the last rewind: if all
have been there is no answer, and nothing changes. -/
theorem trace_rewind_run (w : List Op) (hw : ∀ op ∈ w, op.builds = true) :
    (run w).rewind.trace (w.map Op.again) = empty.trace w ∧
      (∀ r : List Op, r.filter Op.moves = (w.filter Op.moves).map Op.again →
        (run w).rewind.moveTrace r = empty.moveTrace w) ∧
      ∀ ops : List Op,
        (run ops).descend?.map (·.here.id) =
            (run ops).current.children.find? (· ∉ empty.revisited [] ops) ∧
          ((∀ c ∈ (run ops).current.children, c ∈ empty.revisited [] ops) →
            (run ops).descend? = none ∧ Op.descend.apply (run ops) = run ops) := by
  have htravels : ∀ op ∈ w.filter Op.moves, op.travels = true := by
    intro op hop
    obtain ⟨hmem, hmoves⟩ := List.mem_filter.1 hop
    rw [Op.travels, hmoves, hw op hmem]
    rfl
  have hblank : (run w).rewind.map Scope.blank = (run (w.filter Op.moves)).rewind := by
    rw [← rewind_map keepsVisits_blank, run, foldl_apply_map_blank]
    rfl
  have hmoves : ∀ r : List Op, r.filter Op.moves = (w.filter Op.moves).map Op.again →
      (run w).rewind.moveTrace r = empty.moveTrace w := by
    intro r hr
    rw [moveTrace_eq, moveTrace_eq, hr, hblank]
    exact (retraces_rewind (numbered_run _) (grows_foldl htravels _)).trace_again htravels
      (numbered_run []) (numbered_run _).rewind (rewind_rewind _)
  have hpath : (run w).rewind.path = empty.path := by
    rw [← path_map_blank, hblank]
    exact (retraces_rewind (numbered_run _) (grows_foldl htravels _)).path
  refine ⟨trace_again_eq hpath (hmoves _ ?_), hmoves, fun ops ↦ ?_⟩
  · rw [List.filter_map]
    refine congrArg _ (List.filter_congr fun op _ ↦ ?_)
    cases op <;> rfl
  · have hvisit : (run ops).descend?.map (·.here.id) =
        (run ops).current.children.find? (· ∉ empty.revisited [] ops) :=
      (Recorded.empty.foldl (numbered_run []) ops).descend?_eq_find? (numbered_run ops)
    refine ⟨hvisit, fun hall ↦ ?_⟩
    have hnone : (run ops).descend? = none := by
      refine Option.map_eq_none_iff.1 (hvisit.trans (List.find?_eq_none.2 fun c hc ↦ ?_))
      simpa using hall c hc
    refine ⟨hnone, ?_⟩
    rw [Op.apply, hnone]
    rfl

/-- Two blocks side by side in a function, the second left more often than there are scopes, and a
declaration that comes between the openings of two scopes inside the first. -/
def leavingTooOften : List Op :=
  [.enter "f", .enter "a", .enter "b", .exit, .declare "x" .int none ⟨3, 5⟩, .enter "c", .exit,
    .exit, .enter "d", .exit, .exit, .exit, .assign "x" none, .enter "e"]

theorem trace_rewind_run_leavingTooOften :
    (∀ op ∈ leavingTooOften, op.builds = true) ∧
      ((run leavingTooOften).rewind.moveTrace
        ((leavingTooOften.filter Op.moves).map Op.again)).map Prod.fst =
        [1, 2, 3].map (some <| .entered <| some ·) ++ [some (.left true), some (.entered (some 4)),
          some (.left true), some (.left true), some (.entered (some 5)), some (.left true),
          some (.left true), some (.left false), some (.entered (some 6))] := by
  have hw : ∀ op ∈ leavingTooOften, op.builds = true := by decide
  refine ⟨hw, ?_⟩
  rw [(trace_rewind_run leavingTooOften hw).2.1 _ rfl]
  decide +kernel

end ScopeTree

end BlockLang
