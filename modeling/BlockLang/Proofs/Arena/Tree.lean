import BlockLang.Proofs.Arena.Outline

/-!
# Arenas and trees agree

A scope tree refers to nothing by number, and the passes of the compiler work on scope trees. What
is stored is an arena (`ScopeTree.arena`): each scope of the tree stands at its number, with the
numbers of its parent and its children. Every operation on the tree is the operation of the same
name on the arena (`ScopeTree.perform_arena`), so the arena of a run of operations is that of the
tree they make (`ScopeTree.run_arena`), and what is asked of the one is answered as by the other
(`ScopeTree.agrees_run`).

The scopes of a tree come as rows (`ScopeTree.infos`), and the rows by number are its listing. An
operation that changes one row changes the listing at one number (`Edits.listing_eq`). Searches
follow the parents of the rows, and printing follows the children of the rows
(`Forest.preOrder_ids`).

The bound on the number of scopes is that of the counter and the levels, which have 32 bits in an
arena.
-/

namespace BlockLang

/-- The row as a stored scope. -/
def ScopeInfo.stored (r : ScopeInfo) : StoredScope where
  name := r.scope.name
  parent := r.parent
  children := r.children
  symbols := r.scope.symbols
  level := UInt32.ofNat r.level
  cursor := r.scope.visited

/-- The scopes of the tree by number. -/
def ScopeTree.arena (t : ScopeTree) : ScopeArena where
  scopes := t.listing.map ScopeInfo.stored
  current := t.here.id
  counter := UInt32.ofNat (t.count - 1)

/-- The lines on a stored row are those on the scope at its level, if the level fits 32 bits. -/
theorem ScopeInfo.lines_stored {r : ScopeInfo} (h : r.level < 2 ^ 32) :
    r.stored.lines = r.scope.outline r.level := by
  have hlevel : r.stored.level.toNat = r.level := UInt32.toNat_ofNat_of_lt h
  have hprinted : toString r.stored.level = toString r.level := congrArg toString hlevel
  have hindent : r.stored.indent = String.join (List.replicate r.level "  ") := by
    rw [StoredScope.indent, hlevel]
  have hitem : r.stored.item =
      (String.join (List.replicate r.level "  ") ++ "  - " ++ Symbol.text ·) := by
    funext symbol
    rw [StoredScope.item, hindent]
  rw [StoredScope.lines, StoredScope.heading, hprinted, hindent, hitem]
  rfl

namespace Forest

theorem getElem?_ids (F : Forest) (n : Nat) :
    F.ids[n]? = (F.cut? n).map (·.scope.id) := by
  induction F generalizing n with
  | nil => rfl
  | cons s i l _ ih =>
    cases n with
    | zero => rfl
    | succ n =>
      rw [ids, List.getElem?_cons_succ, ih, cut?, Option.map_map]
      rfl

/-- The recursion through the numbers of children meets the rows of a forest in their order, if each
is stored at its number. -/
theorem preOrder_ids {a : ScopeArena} (F : Forest) (parent : Option Nat) (level : Nat)
    (h : ∀ r ∈ F.infos parent level, a.scopes[r.scope.id]? = some r.stored) :
    a.PreOrder F.ids ((F.infos parent level).map (·.scope.id)) := by
  induction F generalizing parent level with
  | nil => exact .nil
  | cons s i l ihi ihl =>
    rw [infos, List.forall_mem_cons, List.forall_mem_append] at h
    obtain ⟨hscope, hinner, hlater⟩ := h
    rw [ids, infos, List.map_cons, List.map_append]
    exact .cons hscope (ihi _ _ hinner) (ihl _ _ hlater)

/-- The outline of a forest is that of its rows, one after the other. -/
theorem outline_eq_flatMap (F : Forest) (parent : Option Nat) (level : Nat)
    (h : ∀ r ∈ F.infos parent level, r.level < 2 ^ 32) :
    F.outline level = (F.infos parent level).flatMap fun r ↦ r.stored.lines := by
  induction F generalizing parent level with
  | nil => rfl
  | cons s i l ihi ihl =>
    rw [infos, List.forall_mem_cons, List.forall_mem_append] at h
    obtain ⟨hscope, hinner, hlater⟩ := h
    rw [outline, infos, List.flatMap_cons, List.flatMap_append, ← ihi _ _ hinner, ← ihl _ _ hlater,
      List.append_assoc, ScopeInfo.lines_stored hscope]

theorem sum_size_infos (F : Forest) (parent : Option Nat) (level : Nat) :
    ((F.infos parent level).map (·.scope.symbols.size)).sum = F.symbolCount := by
  induction F generalizing parent level with
  | nil => rfl
  | cons s i l ihi ihl =>
    rw [infos, List.map_cons, List.sum_cons, List.map_append, List.sum_append, ihi, ihl,
      symbolCount, Nat.add_assoc]

end Forest

namespace ScopeTree

variable {t t' : ScopeTree} {r : ScopeInfo} {s : Scope} {x : String}

/-! ### Listings -/

/-- A list that has rows of the tree at their numbers is the listing of the tree. -/
theorem Counted.listing_eq (h : t.Counted) {rows : List ScopeInfo} (hlength : rows.length = t.count)
    (hrows : ∀ (i : Nat) (q : ScopeInfo), rows[i]? = some q → q ∈ t.infos ∧ q.scope.id = i) :
    t.listing = rows := by
  refine List.ext_getElem? fun i ↦ ?_
  rcases hi : rows[i]? with - | q
  · rw [List.getElem?_eq_none_iff] at hi ⊢
    rw [h.length_listing, ← hlength]
    exact hi
  · exact h.listing_getElem?_eq_some_iff.2 (hrows i q hi)

/-- The rows in the order of printing are those by number. -/
theorem Counted.infos_perm_listing (h : t.Counted) : t.infos.Perm t.listing := by
  have hinfos : (t.infos.map (·.scope.id)).Nodup := by
    rw [← Multiset.coe_nodup, ← Multiset.map_coe, h]
    exact Multiset.nodup_range _
  have hlisting : (t.listing.map (·.scope.id)).Nodup := by
    rw [h.map_id_listing]
    exact List.nodup_range
  exact (List.perm_ext_iff_of_nodup hinfos.of_map hlisting.of_map).2 fun r ↦ h.mem_listing.symm

/-- A change of one row that keeps its number. -/
theorem Edits.listing_eq (he : t.Edits t' r s) (h : t.Counted) (h' : t'.Counted)
    (hid : s.id = r.scope.id) :
    t'.listing = t.listing.set r.scope.id { r with scope := s } := by
  obtain ⟨rest, hold, hnew⟩ := he.rows
  refine h'.listing_eq (by rw [List.length_set, h.length_listing, he.count]) fun i q hq ↦ ?_
  rw [List.getElem?_set] at hq
  rw [← Multiset.mem_coe, hnew, Multiset.mem_cons]
  split at hq
  · rename_i hi
    split at hq
    · obtain rfl := Option.some.inj hq
      exact ⟨.inl rfl, hid.trans hi⟩
    · cases hq
  · rename_i hi
    obtain ⟨hmem, hqi⟩ := h.listing_getElem?_eq_some_iff.1 hq
    rw [← Multiset.mem_coe, hold, Multiset.mem_cons] at hmem
    refine ⟨.inr (hmem.resolve_left ?_), hqi⟩
    rintro rfl
    exact hi hqi

/-- Leaving a scope only moves, so every row stays at its number. -/
theorem listing_exit? (h : t.Counted) (he : t.exit? = some t') : t'.listing = t.listing := by
  obtain ⟨hinfos, hcount⟩ := infos_exit? he
  have h' : t'.Counted := by rw [Counted, hinfos, hcount, h]
  refine h'.listing_eq (by rw [h.length_listing, hcount]) fun i q hq ↦ ?_
  rw [hinfos]
  exact h.listing_getElem?_eq_some_iff.1 hq

/-- Going back to the outermost scope changes no row but for the children that were visited. -/
theorem listing_rewind (h : t.Counted) (h' : t.rewind.Counted) :
    t.rewind.listing = t.listing.map fun r ↦ { r with scope := r.scope.unvisited } := by
  refine h'.listing_eq (by rw [List.length_map, h.length_listing]; rfl) fun i q hq ↦ ?_
  rw [List.getElem?_map] at hq
  obtain ⟨q', hq', rfl⟩ := Option.map_eq_some_iff.1 hq
  obtain ⟨hmem, hid⟩ := h.listing_getElem?_eq_some_iff.1 hq'
  rw [infos_rewind]
  exact ⟨List.mem_map_of_mem hmem, hid⟩

/-- A scope that is opened comes last, and the row of the scope around it gets one child more. -/
theorem listing_enter (h : t.Counted) {name : String} (h' : (t.enter name).Counted) :
    (t.enter name).listing = (t.listing ++ [(t.enter name).current]).set t.here.id
      { t.current with children := t.current.children ++ [t.count] } := by
  have hlength := h.length_listing
  have hlt : t.here.id < t.count := h.id_lt t.current_mem_infos
  refine h'.listing_eq (by rw [List.length_set, List.length_append, hlength]; rfl) fun i q hq ↦ ?_
  rw [List.getElem?_set] at hq
  rw [← Multiset.mem_coe, coe_infos_enter, Multiset.mem_cons, Multiset.mem_cons]
  split at hq
  · rename_i hi
    split at hq
    · obtain rfl := Option.some.inj hq
      exact ⟨.inr (.inl rfl), hi⟩
    · cases hq
  · rename_i hi
    rcases lt_or_ge i t.count with hlow | hhigh
    · rw [List.getElem?_append_left (hlength ▸ hlow)] at hq
      obtain ⟨hmem, hqi⟩ := h.listing_getElem?_eq_some_iff.1 hq
      rw [← Multiset.mem_coe, coe_infos, Multiset.mem_cons] at hmem
      refine ⟨.inr (.inr (hmem.resolve_left ?_)), hqi⟩
      rintro rfl
      exact hi hqi
    · rw [List.getElem?_append_right (hlength ▸ hhigh), List.getElem?_singleton] at hq
      split at hq
      · rename_i hzero
        obtain rfl := Option.some.inj hq
        exact ⟨.inl rfl, by show t.count = i; omega⟩
      · cases hq

/-! ### Stored scopes -/

/-- Each row of the tree is stored at its number. -/
theorem getElem?_arena (h : t.Counted) (hr : r ∈ t.infos) :
    t.arena.scopes[r.scope.id]? = some r.stored := by
  rw [arena, List.getElem?_map, h.listing_getElem?_eq_some_iff.2 ⟨hr, rfl⟩]
  rfl

theorem length_arena (h : t.Counted) : t.arena.scopes.length = t.count := by
  rw [arena, List.length_map, h.length_listing]

theorem here_arena (h : t.Counted) : t.arena.here = some t.current.stored :=
  getElem?_arena h t.current_mem_infos

/-- A change of one row is a change of one stored scope. -/
theorem Edits.arena_eq (he : t.Edits t' r s) (h : t.Counted) (h' : t'.Counted)
    (hid : s.id = r.scope.id) :
    t'.arena = { t.arena with
      scopes := t.arena.scopes.set r.scope.id (ScopeInfo.stored { r with scope := s })
      current := t'.here.id } := by
  rw [arena, he.listing_eq h h' hid, List.map_set, he.count]
  rfl

/-! ### Moving -/

/-- On both sides the number of a new scope is how many there are before it. That is the counter
once it has been raised, so the name is the same. -/
theorem enter_arena (h : t.Numbered) (hroom : t.count < 2 ^ 32) (name : String) :
    t.arena.enter name = some (t.enter name).arena := by
  have hcurrent := here_arena h.counted
  have hlength := length_arena h.counted
  have hcounter : t.arena.counter + 1 = UInt32.ofNat t.count := by
    have hpos : 0 < t.count := Nat.zero_lt_of_lt (h.counted.id_lt t.current_mem_infos)
    rw [show t.count = t.count - 1 + 1 by omega, UInt32.ofNat_add]
    rfl
  have hchild : t.arena.child t.current.stored name = (t.enter name).current.stored := by
    have hname : toString (UInt32.ofNat t.count) = toString t.count :=
      congrArg toString (UInt32.toNat_ofNat_of_lt hroom)
    rw [ScopeArena.child, hcounter, hname]
    exact congrArg (StoredScope.mk _ _ _ _ · _) (UInt32.ofNat_add t.level 1).symm
  rw [ScopeArena.enter_eq hcurrent, ScopeArena.entered, hchild, hlength, hcounter]
  show _ = some (ScopeArena.mk ((t.enter name).listing.map _) t.count (UInt32.ofNat t.count))
  rw [listing_enter h.counted (h.enter name).counted, List.map_set, List.map_append]
  rfl

/-- The number of the parent is that of the scope that is current after leaving the current one. -/
theorem parent_stored_current (t : ScopeTree) :
    t.current.stored.parent = t.exit?.map (·.here.id) := by
  show t.outer.head?.map _ = _
  rw [exit?]
  rcases t.outer with - | ⟨e, es⟩ <;> rfl

theorem exit_arena (h : t.Numbered) : t.arena.exit = some (t.exit?.map arena) := by
  rw [ScopeArena.exit_eq (here_arena h.counted), parent_stored_current]
  rcases he : t.exit? with - | t'
  · rfl
  · have hlisting := listing_exit? h.counted he
    have hcount := (infos_exit? he).2
    rw [Option.map_some, Option.map_some, Option.map_some, arena, arena, hlisting, hcount]

theorem rewind_arena (h : t.Numbered) : t.arena.rewind = t.rewind.arena := by
  have hroot : t.root.1.id = 0 := ((h.rows _ List.mem_cons_self).outermost rfl).1
  show ScopeArena.mk ((t.listing.map _).map _) 0 _ =
    ScopeArena.mk (t.rewind.listing.map _) t.root.1.id _
  rw [hroot, listing_rewind h.counted h.rewind.counted, List.map_map, List.map_map]
  rfl

/-- There is a child at the cursor if and only if there is a scope that has not been visited. -/
theorem descend_arena (h : t.Numbered) : t.arena.descend = some (t.descend?.map arena) := by
  rw [ScopeArena.descend_eq (here_arena h.counted)]
  show some ((t.inner.ids[t.here.visited]?).map _) = _
  rw [Forest.getElem?_ids]
  rcases hd : t.descend? with - | t'
  · rw [Option.map_eq_none_iff.1 hd]
    rfl
  · have hnum := h.apply .descend
    rw [Op.apply, hd] at hnum
    obtain ⟨c, hc, rfl⟩ := Option.map_eq_some_iff.1 hd
    obtain ⟨hedit, -⟩ := edits_descend? hd
    rw [hc]
    exact congrArg (some ∘ some) (hedit.arena_eq h.counted hnum.counted rfl).symm

/-! ### Searches -/

/-- A search from parent to parent meets the scopes around the current one, from the inside
outwards, and no others. -/
theorem climb_eq {α : Type} (h : t.Numbered) {a : ScopeArena} (ha : a.scopes = t.arena.scopes)
    (g : Nat → SymbolTable → Option α) :
    a.climb (fun i s ↦ g i s.symbols) t.here.id =
      some (t.chain.findSome? fun s ↦ g s.id s.symbols) := by
  induction houter : t.outer generalizing t with
  | nil =>
    have hhere : a.scopes[t.here.id]? = some t.current.stored :=
      (congrArg (·[t.here.id]?) ha).trans (here_arena h.counted)
    have he : t.exit? = none := by rw [exit?, houter]
    rw [chain, houter, List.findSome?_cons]
    rcases hg : g t.here.id t.here.symbols with - | v
    · rw [ScopeArena.climb_of_none hhere hg, parent_stored_current, he]
      rfl
    · rw [ScopeArena.climb_of_some hhere hg]
  | cons e es ih =>
    have hhere : a.scopes[t.here.id]? = some t.current.stored :=
      (congrArg (·[t.here.id]?) ha).trans (here_arena h.counted)
    -- the parent is current in the tree that leaving the scope makes, which has the same listing
    obtain ⟨t', he, hscope, houter'⟩ :
        ∃ t', t.exit? = some t' ∧ t'.here = e.scope ∧ t'.outer = es := by
      rw [exit?, houter]
      exact ⟨_, rfl, rfl, rfl⟩
    have hscopes : a.scopes = t'.arena.scopes := by
      rw [ha, arena, arena, listing_exit? h.counted he]
    have hrest := ih (h.exit? he) hscopes houter'
    rw [chain, houter', hscope] at hrest
    rw [chain, houter, List.findSome?_cons]
    rcases hg : g t.here.id t.here.symbols with - | v
    · rw [ScopeArena.climb_of_none hhere hg, parent_stored_current, he, Option.map_some, hscope]
      exact hrest
    · rw [ScopeArena.climb_of_some hhere hg]

theorem resolve_arena (h : t.Numbered) (x : String) :
    t.arena.resolve x = some ((t.binding? x).map Prod.fst) := by
  refine (climb_eq h rfl fun i T ↦ if T.contains x then some i else none).trans ?_
  rw [binding?, List.map_findSome?]
  refine congrArg (fun f ↦ some (t.chain.findSome? f)) (funext fun s ↦ ?_)
  show (if (s.symbols.get? x).isSome then some s.id else none) = _
  rcases hx : s.symbols.get? x with - | sym <;> simp [hx]

/-- The row of the scope that binds a name. -/
theorem exists_row_of_binding? {i : Nat} {sym : Symbol} (hx : t.binding? x = some (i, sym)) :
    ∃ r ∈ t.infos, r.scope.id = i ∧ r.scope.symbols.get? x = some sym := by
  obtain ⟨s, hs, hfound⟩ := List.exists_of_findSome?_eq_some hx
  obtain ⟨sym', hget, heq⟩ := Option.map_eq_some_iff.1 hfound
  obtain ⟨rfl, rfl⟩ := Prod.mk.inj heq
  obtain ⟨r, hr, rfl⟩ := exists_info_of_mem_chain hs
  exact ⟨r, hr, rfl, hget⟩

theorem lookup_arena (h : t.Numbered) (x : String) : t.arena.lookup x = some (t.lookup? x) := by
  rw [ScopeArena.lookup, resolve_arena h, t.lookup?_eq_binding?]
  rcases hx : t.binding? x with - | ⟨i, sym⟩
  · rfl
  · obtain ⟨r, hr, rfl, hget⟩ := exists_row_of_binding? hx
    have hscope := getElem?_arena h.counted hr
    show (t.arena.scopes[r.scope.id]?).bind _ = _
    rw [hscope]
    exact congrArg some hget

theorem lookupLocal_arena (h : t.Numbered) (x : String) :
    t.arena.lookupLocal x = some (t.lookupLocal? x) := by
  rw [ScopeArena.lookupLocal, here_arena h.counted]
  rfl

/-- This search differs from that for a declaration only in what it looks for. -/
theorem lookupStored_arena (h : t.Numbered) (x : String) :
    t.arena.lookupStored x = some (t.lookupStored? x) :=
  climb_eq h rfl fun _ T ↦ (T.get? x).filter fun sym : Symbol ↦ sym.storage.isSome

/-! ### Symbols -/

theorem declare_arena (h : t.Numbered) (x : String) (ty : Ty) (value : Option Value) (pos : Pos) :
    t.arena.declare x ty value pos = some ((t.declare? x ty value pos).map arena) := by
  rw [ScopeArena.declare_eq (here_arena h.counted)]
  show some (if t.containsLocal x then _ else _) = _
  rcases hd : t.declare? x ty value pos with - | t'
  · rw [if_pos]
    · rfl
    · by_contra hx
      rw [t.declare?_eq_some (by simpa using hx)] at hd
      cases hd
  · have hnum := h.apply (.declare x ty value pos)
    rw [Op.apply, hd] at hnum
    have hx : t.containsLocal x = false := containsLocal_of_declare? hd
    have hhere : t'.here.id = t.here.id := by
      rw [t.declare?_eq_some hx, Option.some.injEq] at hd
      rw [← hd]
    rw [if_neg (by simp [hx]), Option.map_some,
      (edits_declare? hd).arena_eq h.counted hnum.counted rfl, hhere]
    rfl

theorem place_arena (h : t.Numbered) (x : String) (storage : Storage) :
    t.arena.place x storage = some ((t.place? x storage).map arena) := by
  rw [ScopeArena.place_eq (here_arena h.counted)]
  show some (if t.containsLocal x then _ else _) = _
  rcases hd : t.place? x storage with - | t'
  · rw [if_neg]
    · rfl
    · intro hx
      rw [place?, if_pos hx] at hd
      cases hd
  · have hnum := h.apply (.place x storage)
    rw [Op.apply, hd] at hnum
    have hedit := (edits_place? hd).arena_eq h.counted hnum.counted rfl
    rw [place?] at hd
    split at hd
    · rename_i hx
      obtain rfl := Option.some.inj hd
      rw [if_pos hx, Option.map_some, hedit]
      rfl
    · cases hd

/-- The search on the arena ends at the row that changes in the tree. -/
theorem modify_arena (h : t.Numbered) (x : String) (f : Symbol → Symbol) :
    t.arena.modify x f = some ((t.modify? x f).map arena) := by
  have hresolve := resolve_arena h x
  rcases hm : t.modify? x f with - | t'
  · rw [binding?_of_modify?_eq_none hm] at hresolve
    exact ScopeArena.modify_of_resolve_none hresolve f
  · obtain ⟨r, hedit, sym, -, hbinding⟩ := edits_nearest hm
    obtain ⟨rest, hold, -⟩ := hedit.rows
    have hr : r ∈ t.infos := by
      rw [← Multiset.mem_coe, hold]
      exact Multiset.mem_cons_self _ _
    have hhere : t'.here.id = t.here.id := by
      rw [modify?] at hm
      split at hm
      · rw [← Option.some.inj hm]
        rfl
      · obtain ⟨es, -, rfl⟩ := Option.map_eq_some_iff.1 hm
        rfl
    rw [hbinding] at hresolve
    rw [ScopeArena.modify_of_resolve hresolve (getElem?_arena h.counted hr), Option.map_some,
      hedit.arena_eq h.counted (h.modify? hm).counted rfl, hhere]
    rfl

/-! ### Runs -/

/-- An operation on a tree is the operation on its arena, as long as there is room. -/
theorem perform_arena (h : t.Numbered) (op : Op) (hroom : t.count + op.opened ≤ 2 ^ 32) :
    t.arena.perform op = some (op.apply t).arena := by
  have hattempt : ∀ {o : Access (Option ScopeArena)} {t' : Option ScopeTree},
      o = some (t'.map arena) →
        (do return (← o).getD t.arena : Access ScopeArena) = some (t'.getD t).arena := by
    rintro _ t' rfl
    cases t' <;> rfl
  cases op with
  | enter name => exact enter_arena h hroom name
  | exit => exact hattempt (exit_arena h)
  | declare x ty value pos => exact hattempt (declare_arena h x ty value pos)
  | assign x value => exact hattempt (modify_arena h x (Symbol.assign value))
  | place x storage => exact hattempt (place_arena h x storage)
  | rewind => exact congrArg some (rewind_arena h)
  | descend => exact hattempt (descend_arena h)
  | reset => rfl

/-- The arena that operations make is that of the tree that they make, as long as fewer than
`2 ^ 32` scopes are opened. -/
theorem run_arena (ops : List Op) (hroom : (ops.map Op.opened).sum < 2 ^ 32) :
    ScopeArena.run ops = some (run ops).arena := by
  induction ops using List.reverseRecOn with
  | nil => rfl
  | append_singleton ops op ih =>
    rw [List.map_append, List.sum_append, List.map_singleton, List.sum_singleton] at hroom
    have hrun := ih (by omega)
    have hnum : (run ops).Numbered := (reachable_run ops).numbered
    obtain ⟨a, ha, -, hlength, -⟩ := ScopeArena.exists_run ops
    obtain rfl := Option.some.inj (ha.symm.trans hrun)
    have hcount := length_arena hnum.counted
    have hperform := perform_arena hnum op (by omega)
    have hlast : run (ops ++ [op]) = op.apply (run ops) := List.foldl_append
    rw [ScopeArena.run, List.foldlM_append, hlast]
    show (ScopeArena.run ops).bind _ = _
    rw [hrun]
    simpa using hperform

/-! ### Views -/

theorem stats_arena (h : t.Numbered) (hroom : t.count ≤ 2 ^ 32) :
    t.arena.stats = some t.stats := by
  have hlt : t.here.id < t.count := h.counted.id_lt t.current_mem_infos
  have hle : t.level ≤ t.here.id := (h.rows _ t.current_mem_infos).level
  have hsmall : t.level < 2 ^ 32 := by omega
  have hlevel : t.current.stored.level.toNat = t.level := UInt32.toNat_ofNat_of_lt hsmall
  have hsymbols : (t.arena.scopes.map (·.symbols.size)).sum = t.whole.symbolCount := by
    rw [← t.whole.sum_size_infos none 0, arena, List.map_map]
    exact ((Counted.infos_perm_listing h.counted).symm.map fun r ↦ r.scope.symbols.size).sum_nat
  rw [ScopeArena.stats_eq (here_arena h.counted), hsymbols, length_arena h.counted, hlevel]
  rfl

/-- The recursion through numbers prints the rows in the order of the tree. -/
theorem text_arena (h : t.Numbered) (hroom : t.count ≤ 2 ^ 32) : t.arena.text = some t.text := by
  have hroot : t.whole.ids = [0] := congrArg (fun i ↦ [i])
    ((h.rows _ List.mem_cons_self).outermost rfl).1
  have hstored : ∀ r ∈ t.whole.infos none 0, t.arena.scopes[r.scope.id]? = some r.stored :=
    fun r hr ↦ getElem?_arena h.counted hr
  have hlevel : ∀ r ∈ t.whole.infos none 0, r.level < 2 ^ 32 := by
    intro r hr
    have hlt := h.counted.id_lt hr
    have hle := (h.rows r hr).level
    omega
  have horder := t.whole.preOrder_ids none 0 hstored
  rw [hroot] at horder
  have hmet : ((t.whole.infos none 0).map (·.scope.id)).filterMap (t.arena.scopes[·]?) =
      (t.whole.infos none 0).map ScopeInfo.stored := by
    rw [List.filterMap_map, ← List.filterMap_eq_map]
    exact List.filterMap_congr hstored
  rw [horder.text_eq, hmet, List.flatMap_map, text, t.whole.outline_eq_flatMap none 0 hlevel]

/-- What is asked of the arena that operations make is answered as by the tree that they make. -/
theorem agrees_run (ops : List Op) (hroom : (ops.map Op.opened).sum < 2 ^ 32) :
    ∃ a, ScopeArena.run ops = some a ∧
      (∀ x, a.lookup x = some ((run ops).lookup? x) ∧
        a.lookupLocal x = some ((run ops).lookupLocal? x) ∧
        a.lookupStored x = some ((run ops).lookupStored? x)) ∧
      a.stats = some (run ops).stats ∧ a.text = some (run ops).text := by
  have hnum : (run ops).Numbered := (reachable_run ops).numbered
  have hrun : ScopeArena.run ops = some (run ops).arena := run_arena ops hroom
  obtain ⟨a, ha, -, hlength, -⟩ := ScopeArena.exists_run ops
  obtain rfl := Option.some.inj (ha.symm.trans hrun)
  have hcount : (run ops).count ≤ 2 ^ 32 := by
    rw [length_arena hnum.counted] at hlength
    omega
  refine ⟨_, hrun, fun x ↦ ⟨?_, ?_, ?_⟩, stats_arena hnum hcount, text_arena hnum hcount⟩
  · exact lookup_arena hnum x
  · exact lookupLocal_arena hnum x
  · exact lookupStored_arena hnum x

end ScopeTree

end BlockLang
