import BlockLang.Proofs.Arena.Invariant
import BlockLang.Proofs.Assembly.Text
import Mathlib.Algebra.BigOperators.Group.List.Basic

/-!
# The printing of scopes is complete

The scopes of an arena are printed by a recursion that follows the numbers of children, which could
go round in circles, meet a number without a scope, meet a scope twice or never. It does none of
these, whatever operations made the arena (`ScopeArena.Reachable.complete_outline`).

A `ScopeArena.PreOrder` is a recursion that has come to its end, with the scopes in the order in
which it met them. There is at most one from given scopes (`PreOrder.unique`), and it is what is
printed (`PreOrder.mapM_outline`). Of the links of an arena (`ScopeArena.Linked`) it takes

* that a child has a greater number, for the recursion to end (`Linked.exists_preOrder`);
* that a child is listed by its parent only, for no scope to be met twice: a scope inside two
  others is inside one that is inside the other (`Below.total`);
* that a parent lists its child, for none to be left out (`PreOrder.mem_iff`).
-/

namespace BlockLang

/-! ### Lines -/

theorem Symbol.oneLine_text {s : Symbol} (h : OneLine s.name) : OneLine s.text := by
  have hty : OneLine s.ty.name := by cases s.ty <;> decide
  have hvalue : OneLine s.valueText := by
    rw [valueText]
    rcases s.value with - | (v | b)
    · cases s.initialized <;> decide
    · exact oneLine_append.2 ⟨by decide, oneLine_toString v.toInt⟩
    · cases b <;> exact oneLine_append.2 ⟨by decide, by decide⟩
  have hstorage : OneLine s.storageText := by
    rw [storageText]
    rcases s.storage with - | (- | n)
    · exact (by decide : OneLine "")
    · exact oneLine_append.2 ⟨by decide, h⟩
    · exact oneLine_append.2 ⟨by decide, (isWord_toString n).oneLine⟩
  have hpos : OneLine (toString s.pos) := by
    show OneLine ("Line " ++ toString s.pos.line ++ ", Column " ++ toString s.pos.column)
    simp only [oneLine_append]
    exact ⟨⟨⟨by decide, (isWord_toString _).oneLine⟩, by decide⟩, (isWord_toString _).oneLine⟩
  simp only [text, oneLine_append]
  exact ⟨⟨⟨⟨⟨⟨⟨h, by decide⟩, hty⟩, hvalue⟩, hstorage⟩, by decide⟩, hpos⟩, by decide⟩

/-- The names that are printed on the scope have no line breaks. -/
def StoredScope.OneLineNames (s : StoredScope) : Prop :=
  OneLine s.name ∧ ∀ symbol ∈ s.symbols.toList, OneLine symbol.name

instance (s : StoredScope) : Decidable s.OneLineNames :=
  inferInstanceAs (Decidable (_ ∧ ∀ symbol ∈ s.symbols.toList, OneLine symbol.name))

theorem StoredScope.OneLineNames.oneLine_lines {s : StoredScope} (h : s.OneLineNames) :
    ∀ line ∈ s.lines, OneLine line := by
  have hindent : OneLine s.indent := by
    rw [indent]
    induction s.level.toNat with
    | zero => decide
    | succ n ih =>
      rw [List.replicate_succ, String.join_cons, oneLine_append]
      exact ⟨by decide, ih⟩
  rw [lines, List.forall_mem_cons, List.forall_mem_map]
  constructor
  · simp only [heading, oneLine_append]
    exact ⟨⟨⟨⟨hindent, h.1⟩, by decide⟩, (isWord_toString s.level.toNat).oneLine⟩, by decide⟩
  · intro symbol hsymbol
    simp only [item, oneLine_append]
    exact ⟨⟨hindent, by decide⟩, Symbol.oneLine_text (h.2 symbol hsymbol)⟩

theorem StoredScope.length_lines (s : StoredScope) : s.lines.length = s.symbols.size + 1 := by
  simp [lines, SymbolTable.toList, SymbolTable.size]

namespace ScopeArena

variable {a a' : ScopeArena} {s : StoredScope} {i j : Nat} {is js order : List Nat}

/-! ### States -/

/-- An arena that operations lead to when symbols may be changed in any way between them. -/
inductive Reachable : ScopeArena → Prop
  /-- The outermost scope alone. -/
  | empty : Reachable .empty
  /-- The arena after an operation. -/
  | perform {a a' : ScopeArena} (op : ScopeTree.Op) : Reachable a → a.perform op = some a' →
    Reachable a'
  /-- The arena after a change of the nearest symbol of a name. -/
  | edit {a a' : ScopeArena} {x : String} {f : Symbol → Symbol} : Reachable a →
    a.modify x f = some (some a') → Reachable a'

theorem Reachable.linked (h : a.Reachable) : a.Linked := by
  induction h with
  | empty => exact .empty
  | perform op _ hperform ih =>
    obtain ⟨a', ha', hstep⟩ := ih.exists_perform op
    obtain rfl := Option.some.inj (ha'.symm.trans hperform)
    exact ih.step hstep
  | @edit a a' x f _ hmodify ih =>
    rcases ih.modify_cases x f with hnone | ⟨i, s, hs, hsome⟩
    · rw [hnone] at hmodify
      cases hmodify
    · obtain rfl := Option.some.inj (Option.some.inj (hsome.symm.trans hmodify))
      have hframe : StoredScope.frame { s with symbols := s.symbols.modify x f } = s.frame := rfl
      exact ih.set hs hframe (ih.cursor s (List.mem_of_getElem? hs)) ih.current

theorem reachable_run {ops : List ScopeTree.Op} (h : run ops = some a) : a.Reachable := by
  induction ops using List.reverseRecOn generalizing a with
  | nil =>
    obtain rfl := Option.some.inj h
    exact .empty
  | append_singleton ops op ih =>
    rw [run, List.foldlM_append, Option.bind_eq_bind, Option.bind_eq_some_iff] at h
    obtain ⟨a', ha', hperform⟩ := h
    exact .perform op (ih ha') (by simpa using hperform)

/-! ### Scopes inside others -/

/-- The scope `j` is the scope `i` or inside it. -/
inductive Below (a : ScopeArena) (i : Nat) : Nat → Prop
  /-- The scope itself. -/
  | refl : Below a i i
  /-- A scope with its parent. -/
  | inner {j p : Nat} {s : StoredScope} (hs : a.scopes[j]? = some s) (hparent : s.parent = some p)
    (h : Below a i p) : Below a i j

theorem Below.trans {k : Nat} (h : a.Below i j) (h' : a.Below j k) : a.Below i k := by
  induction h' with
  | refl => exact h
  | inner hs hparent _ ih => exact .inner hs hparent ih

/-- Of two scopes that a scope is inside of, one is inside the other. -/
theorem Below.total {i' : Nat} (h : a.Below i j) (h' : a.Below i' j) :
    a.Below i i' ∨ a.Below i' i := by
  induction h with
  | refl => exact .inr h'
  | inner hs hparent h ih =>
    cases h' with
    | refl => exact .inl (.inner hs hparent h)
    | inner hs' hparent' h' =>
      obtain rfl := Option.some.inj (hs.symm.trans hs')
      obtain rfl := Option.some.inj (hparent.symm.trans hparent')
      exact ih h'

namespace Linked

/-- A scope inside another one has a greater number. -/
theorem le_of_below (h : a.Linked) (hbelow : a.Below i j) : i ≤ j := by
  induction hbelow with
  | refl => exact Nat.le_refl i
  | inner hs hparent _ ih => exact ih.trans (h.parent _ _ _ hs hparent).1.le

theorem below_child (h : a.Linked) (hs : a.scopes[i]? = some s) {c : Nat} (hc : c ∈ s.children) :
    a.Below i c := by
  obtain ⟨r, hr, hparent⟩ := h.child i s c hs hc
  exact .inner hr hparent .refl

/-- What is inside a scope is the scope or inside one of its children. -/
theorem below_iff (h : a.Linked) (hs : a.scopes[i]? = some s) :
    a.Below i j ↔ j = i ∨ ∃ c ∈ s.children, a.Below c j := by
  constructor
  · intro hbelow
    induction hbelow with
    | refl => exact .inl rfl
    | @inner j p t ht hparent _ ih =>
      rcases ih with rfl | ⟨c, hc, hbelow⟩
      · obtain ⟨-, q, hq, hmem⟩ := h.parent j t p ht hparent
        obtain rfl := Option.some.inj (hs.symm.trans hq)
        exact .inr ⟨j, hmem, .refl⟩
      · exact .inr ⟨c, hc, .inner ht hparent hbelow⟩
  · rintro (rfl | ⟨c, hc, hbelow⟩)
    · exact .refl
    · exact (h.below_child hs hc).trans hbelow

/-- Everything is inside the outermost scope. -/
theorem below_outermost (h : a.Linked) (hj : j < a.scopes.length) : a.Below 0 j := by
  induction j using Nat.strongRecOn with
  | ind j ih =>
    have hs : a.scopes[j]? = some a.scopes[j] := List.getElem?_eq_getElem hj
    rcases hparent : a.scopes[j].parent with - | p
    · rw [(h.outermost j _ hs).1 hparent]
      exact .refl
    · have hlt := (h.parent j _ p hs hparent).1
      exact .inner hs hparent (ih p hlt (hlt.trans hj))

/-- Nothing is inside two children of a scope. -/
theorem eq_of_below_children (h : a.Linked) (hs : a.scopes[i]? = some s) {c c' : Nat}
    (hc : c ∈ s.children) (hc' : c' ∈ s.children) (hbelow : a.Below c j) (hbelow' : a.Below c' j) :
    c = c' := by
  -- a child inside another one would have this one as an ancestor of the common parent
  have hnot : ∀ {c c' : Nat}, c ∈ s.children → c' ∈ s.children → a.Below c c' → c = c' := by
    intro c c' hc hc' hbelow
    cases hbelow with
    | refl => rfl
    | inner ht hparent hbelow =>
      obtain ⟨r, hr, hparent'⟩ := h.child i s c' hs hc'
      obtain rfl := Option.some.inj (hr.symm.trans ht)
      obtain rfl := Option.some.inj (hparent'.symm.trans hparent)
      have hle := h.le_of_below hbelow
      have hlt := (h.child_lt hs hc).1
      omega
  rcases hbelow.total hbelow' with hinside | hinside
  · exact hnot hc hc' hinside
  · exact (hnot hc' hc hinside).symm

end Linked

/-! ### Recursions that end -/

/-- From the scopes `is`, one after the other, the recursion meets the scopes in this order: each
before its children, and these from the first to the last. -/
inductive PreOrder (a : ScopeArena) : List Nat → List Nat → Prop
  /-- There is nothing to meet. -/
  | nil : PreOrder a [] []
  /-- A scope, what is inside it, and the rest. -/
  | cons {i : Nat} {is inner later : List Nat} {s : StoredScope} (hs : a.scopes[i]? = some s)
    (hinner : PreOrder a s.children inner) (hlater : PreOrder a is later) :
    PreOrder a (i :: is) (i :: (inner ++ later))

namespace PreOrder

/-- There is only one order from given scopes. -/
theorem unique {order' : List Nat} (h : a.PreOrder is order) (h' : a.PreOrder is order') :
    order = order' := by
  induction h generalizing order' with
  | nil =>
    cases h'
    rfl
  | cons hs _ _ ihinner ihlater =>
    cases h' with
    | cons hs' hinner' hlater' =>
      obtain rfl := Option.some.inj (hs.symm.trans hs')
      rw [ihinner hinner', ihlater hlater']

/-- What is met is what is inside the scopes that the recursion starts from. -/
theorem mem_iff (hlinked : a.Linked) (h : a.PreOrder is order) :
    j ∈ order ↔ ∃ i ∈ is, a.Below i j := by
  induction h with
  | nil => simp
  | cons hs _ _ ihinner ihlater =>
    rw [List.mem_cons, List.mem_append, ihinner, ihlater, List.exists_mem_cons_iff,
      hlinked.below_iff hs, or_assoc]

/-- No scope is met twice, if nothing is inside two of the scopes that the recursion starts from. -/
theorem nodup (hlinked : a.Linked) (h : a.PreOrder is order)
    (hapart : is.Pairwise fun i i' ↦ ∀ j, a.Below i j → ¬a.Below i' j) : order.Nodup := by
  induction h with
  | nil => exact .nil
  | @cons i is inner later s hs hinner hlater ihinner ihlater =>
    obtain ⟨hfirst, hrest⟩ := List.pairwise_cons.1 hapart
    have hchildren : s.children.Pairwise fun c c' ↦ ∀ j, a.Below c j → ¬a.Below c' j :=
      (hlinked.children s (List.mem_of_getElem? hs)).imp_of_mem fun hc hc' hlt j hbelow hbelow' ↦
        hlt.ne (hlinked.eq_of_below_children hs hc hc' hbelow hbelow')
    have hbelow : ∀ j ∈ inner, a.Below i j := by
      intro j hj
      obtain ⟨c, hc, hbelow⟩ := (hinner.mem_iff hlinked).1 hj
      exact (hlinked.below_child hs hc).trans hbelow
    refine List.nodup_cons.2 ⟨fun hi ↦ ?_, List.nodup_append.2
      ⟨ihinner hchildren, ihlater hrest, fun j hj j' hj' heq ↦ ?_⟩⟩
    · rcases List.mem_append.1 hi with hi | hi
      · obtain ⟨c, hc, hbelow⟩ := (hinner.mem_iff hlinked).1 hi
        have hle := hlinked.le_of_below hbelow
        have hlt := (hlinked.child_lt hs hc).1
        omega
      · obtain ⟨i', hi', hbelow⟩ := (hlater.mem_iff hlinked).1 hi
        exact hfirst i' hi' i .refl hbelow
    · subst heq
      obtain ⟨i', hi', hbelow'⟩ := (hlater.mem_iff hlinked).1 hj'
      exact hfirst i' hi' j (hbelow j hj) hbelow'

/-- What is printed are the lines on the scopes, in the order in which they are met. -/
theorem mapM_outline (h : a.PreOrder is order) :
    ∃ parts, is.mapM a.outline = some parts ∧
      parts.flatten = (order.filterMap (a.scopes[·]?)).flatMap StoredScope.lines := by
  induction h with
  | nil => exact ⟨[], rfl, rfl⟩
  | @cons i is inner later s hs _ _ ihinner ihlater =>
    obtain ⟨parts, hinner, hflat⟩ := ihinner
    obtain ⟨parts', hlater, hflat'⟩ := ihlater
    have hscope : a.outline i = some (s.lines ++ parts.flatten) := by
      rw [outline, hs]
      show (s.children.mapM a.outline).bind _ = _
      rw [hinner]
      rfl
    refine ⟨(s.lines ++ parts.flatten) :: parts', ?_, ?_⟩
    · rw [List.mapM_cons, hscope]
      show (is.mapM a.outline).bind _ = _
      rw [hlater]
      rfl
    · rw [List.flatten_cons, hflat, hflat', List.filterMap_cons_some hs, List.flatMap_cons,
        List.filterMap_append, List.flatMap_append, List.append_assoc]

theorem of_forall (h : ∀ i ∈ is, ∃ order, a.PreOrder [i] order) : ∃ order, a.PreOrder is order := by
  induction is with
  | nil => exact ⟨[], .nil⟩
  | cons i is ih =>
    obtain ⟨⟨_, hfirst⟩, hrest⟩ := List.forall_mem_cons.1 h
    obtain ⟨later, hlater⟩ := ih hrest
    cases hfirst with
    | cons hs hinner => exact ⟨_, .cons hs hinner hlater⟩

end PreOrder

/-- The recursion from a scope ends, since the numbers of children get greater and greater. -/
theorem Linked.exists_preOrder (h : a.Linked) (hi : i < a.scopes.length) :
    ∃ order, a.PreOrder [i] order := by
  induction hn : a.scopes.length - i using Nat.strongRecOn generalizing i with
  | ind n ih =>
    have hs : a.scopes[i]? = some a.scopes[i] := List.getElem?_eq_getElem hi
    have hchildren : ∀ c ∈ a.scopes[i].children, ∃ order, a.PreOrder [c] order := by
      intro c hc
      obtain ⟨hlt, hlength⟩ := h.child_lt hs hc
      exact ih (a.scopes.length - c) (by omega) hlength rfl
    obtain ⟨inner, hinner⟩ := PreOrder.of_forall hchildren
    exact ⟨_, .cons hs hinner .nil⟩

/-- From the outermost scope each scope is met once. -/
theorem Linked.perm_range (h : a.Linked) (horder : a.PreOrder [0] order) :
    order.Perm (List.range a.scopes.length) := by
  have hnodup : order.Nodup := horder.nodup h (List.pairwise_singleton _ _)
  refine (List.perm_ext_iff_of_nodup hnodup List.nodup_range).2 fun j ↦ ?_
  rw [horder.mem_iff h, List.mem_range]
  constructor
  · rintro ⟨i, hi, hbelow⟩
    obtain rfl := List.mem_singleton.1 hi
    cases hbelow with
    | refl => exact Nat.zero_lt_of_lt h.current
    | inner hs => exact (List.getElem?_eq_some_iff.1 hs).1
  · exact fun hj ↦ ⟨0, List.mem_singleton_self 0, h.below_outermost hj⟩

/-! ### Whole arenas -/

theorem PreOrder.text_eq (h : a.PreOrder [0] order) :
    a.text = some (String.join
      (((order.filterMap (a.scopes[·]?)).flatMap StoredScope.lines).map (· ++ "\n"))) := by
  obtain ⟨parts, hparts, hflat⟩ := h.mapM_outline
  rw [List.mapM_cons, List.mapM_nil, Option.bind_eq_bind, Option.bind_eq_some_iff] at hparts
  obtain ⟨part, hpart, heq⟩ := hparts
  obtain rfl := Option.some.inj heq
  rw [text, hpart, ← hflat, List.flatten_singleton]
  rfl

theorem stats_eq {here : StoredScope} (h : a.here = some here) :
    a.stats = some {
      scopes := a.scopes.length
      symbols := (a.scopes.map (·.symbols.size)).sum
      current := here.name
      level := here.level.toNat } := by
  rw [stats, h, List.sum_eq_foldr, List.foldr_map]
  rfl

private theorem filterMap_getElem?_range {α : Type} (l : List α) :
    (List.range l.length).filterMap (l[·]?) = l := by
  induction l with
  | nil => rfl
  | cons x l ih =>
    rw [List.length_cons, List.range_succ_eq_map, List.filterMap_cons, List.filterMap_map]
    exact congrArg (x :: ·) ih

/-- Whatever operations and changes of symbols made an arena, the printing of its scopes is
complete. The recursion from the outermost scope ends and meets each scope of the arena once, a
scope before those inside it and these in the order in which they were opened. For each scope met,
the line on the scope is printed and then the lines on its symbols. So, if names have no line
breaks, there are as many lines as scopes and symbols. -/
theorem Reachable.complete_outline (h : a.Reachable) :
    ∃ order text stats, a.PreOrder [0] order ∧ order.Perm (List.range a.scopes.length) ∧
      (∀ s ∈ a.scopes, s.children.Pairwise (· < ·)) ∧ a.text = some text ∧ a.stats = some stats ∧
      text = String.join (((order.filterMap (a.scopes[·]?)).flatMap fun s ↦
        s.heading :: s.symbols.toList.map s.item).map (· ++ "\n")) ∧
      ((∀ s ∈ a.scopes, s.OneLineNames) → ∃ lines, textLines text = lines ++ [""] ∧
        lines.length = stats.scopes + stats.symbols) := by
  have hlinked : a.Linked := h.linked
  obtain ⟨order, horder⟩ := hlinked.exists_preOrder (Nat.zero_lt_of_lt hlinked.current)
  have hperm : order.Perm (List.range a.scopes.length) := hlinked.perm_range horder
  have hmet : (order.filterMap (a.scopes[·]?)).Perm a.scopes :=
    (hperm.filterMap _).trans (.of_eq (filterMap_getElem?_range a.scopes))
  obtain ⟨here, hhere⟩ := hlinked.exists_here
  refine ⟨order, _, _, horder, hperm, hlinked.children, horder.text_eq, stats_eq hhere, rfl,
    fun hnames ↦ ⟨_, textLines_join ?_, ?_⟩⟩
  · exact List.forall_mem_flatMap.2 fun s hs ↦ (hnames s (hmet.mem_iff.1 hs)).oneLine_lines
  · show ((order.filterMap (a.scopes[·]?)).flatMap StoredScope.lines).length = _
    rw [List.length_flatMap, (hmet.map _).sum_nat]
    simp only [StoredScope.length_lines]
    rw [List.sum_map_add, add_comm, List.map_const', List.sum_replicate_nat, mul_one]

/-- A function with two blocks side by side, visited again, and a block opened late in the first of
them. -/
def revisiting : List ScopeTree.Op :=
  [.declare "g" .int (some (.int 7)) ⟨1, 5⟩, .enter "function_f", .declare "n" .int none ⟨2, 7⟩,
    .enter "if_then", .declare "n" .bool none ⟨3, 5⟩, .exit, .enter "while_body", .exit, .rewind,
    .descend, .place "n" (.slot 4), .descend, .enter "late"]

theorem complete_outline_revisiting :
    ∃ a, run revisiting = some a ∧ a.Reachable ∧ a.PreOrder [0] [0, 1, 2, 4, 3] ∧
      (∀ s ∈ a.scopes, s.OneLineNames) ∧ ∃ text lines, a.text = some text ∧
        textLines text = lines ++ [""] ∧ lines.length = 5 + 3 := by
  have hfacts : (run revisiting).any (fun a ↦
      a.scopes.map (·.children) = [[1], [2, 3], [4], [], []] ∧
        (∀ s ∈ a.scopes, s.OneLineNames) ∧
          a.stats.map (fun st ↦ st.scopes + st.symbols) = some (5 + 3)) = true := by
    decide +kernel
  obtain ⟨a, hrun, hfacts⟩ := (Option.any_eq_true _ _).1 hfacts
  obtain ⟨hchildren, hnames, hfigures⟩ := of_decide_eq_true hfacts
  have hreachable : a.Reachable := reachable_run hrun
  have horder : a.PreOrder [0] [0, 1, 2, 4, 3] := by
    have hcons : ∀ {i : Nat} {is cs inner later : List Nat},
        (a.scopes.map (·.children))[i]? = some cs → a.PreOrder cs inner → a.PreOrder is later →
          a.PreOrder (i :: is) (i :: (inner ++ later)) := by
      intro i is cs inner later hcs hinner hlater
      rw [List.getElem?_map] at hcs
      obtain ⟨s, hs, rfl⟩ := Option.map_eq_some_iff.1 hcs
      exact .cons hs hinner hlater
    rw [hchildren] at hcons
    have hblocks : a.PreOrder [2, 3] [2, 4, 3] :=
      hcons rfl (hcons rfl .nil .nil) (hcons rfl .nil .nil)
    exact hcons rfl (hcons rfl hblocks .nil) .nil
  obtain ⟨-, text, stats, -, -, -, htext, hstats, -, hcount⟩ :=
    Reachable.complete_outline hreachable
  obtain ⟨lines, hlines, hlength⟩ := hcount hnames
  rw [hstats] at hfigures
  exact ⟨a, hrun, hreachable, horder, hnames, text, lines, htext, hlines,
    hlength.trans (Option.some.inj hfigures)⟩

end ScopeArena

end BlockLang
