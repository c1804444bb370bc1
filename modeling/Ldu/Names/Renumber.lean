import Ldu.Names.Autoname

/-!
# Renumbering the other locals

`compute_display_renumber` shows the locals without a telling name, stack arrays apart, as `v1`,
`v2` and so on, in the order in which they first appear. Parameters, telling names and the names
of called functions are passed over.

After both passes no two variables of a body are shown alike (`displayed_injOn`). A variable may
still be shown under the name of a function the body calls: `compute_autonames` sets the names of
called functions aside, so that none is given to a local, but a variable that no rule renames
keeps its own spelling, whatever is called. Stack arrays are never renamed, and a parameter whose
name for display is in use is not either. `displayed_iff` says that nothing else goes wrong.
-/

namespace Ldu

/-- A name the renumbering gives. -/
def numberedName (k : ℕ) : String :=
  "v" ++ toString k

namespace FunctionBody

variable (f : FunctionBody)

/-- A local without a telling name that is no stack array. -/
def renumberable (given : Alias String) (n : String) : Bool :=
  isTempName n && n ∉ given.keys && n ∉ f.arrays.names

/-- The locals to be renumbered, in the order in which they first appear. -/
def appearing (given : Alias String) : List String :=
  ((varNames (f.order.filterMap (f.blocks[·]?))).filter (f.renumberable given)).eraseDups

/-- The aliases at the end of `compute_display_renumber`. -/
def computeDisplayRenumber (given : Alias String) : Alias String :=
  given ++ Alias.number numberedName (f.params ++ given.names ++ callees f.blocks) 1
    (f.appearing given)

/-- The name a variable is shown under. -/
def displayed (n : String) : String :=
  (f.computeDisplayRenumber f.computeAutonames.given).display n

/-- The variable occurs in the body. -/
def Occurs (n : String) : Prop :=
  ∃ b ∈ f.blocks, b.mentions n = true

/-- The body calls the function. -/
def Calls (c : String) : Prop :=
  ∃ b ∈ f.blocks, ∃ e ∈ b.exprs, e.anyNode (fun d ↦ d.callee? == some c) = true

end FunctionBody

/-! ### Going through the nodes -/

theorem mem_inOrder {b : Block} {e : Expr} : e ∈ b.inOrder ↔ e ∈ b.exprs := by
  simp only [Block.inOrder, Block.exprs, Block.termExprs, List.mem_append]
  tauto

theorem mem_nodes_iff {b : Block} {p : Expr → Bool} :
    (∃ d ∈ b.nodes, p d = true) ↔ ∃ e ∈ b.exprs, e.anyNode p = true := by
  simp only [Block.nodes, List.mem_flatMap, mem_inOrder, Expr.anyNode_eq_any_nodes,
    List.any_eq_true]
  constructor
  · rintro ⟨d, ⟨e, he, hd⟩, hp⟩
    exact ⟨e, he, d, hd, hp⟩
  · rintro ⟨e, he, d, hd, hp⟩
    exact ⟨d, ⟨e, he, hd⟩, hp⟩

theorem varName?_eq_some {d : Expr} {n : String} : d.varName? = some n ↔ d.isVarNamed n = true := by
  cases d <;> simp [Expr.varName?, Expr.isVarNamed]

namespace FunctionBody

variable {f : FunctionBody} {n c : String} {i : ℕ}

theorem mem_varNames : n ∈ varNames f.blocks ↔ f.Occurs n := by
  simp only [varNames, List.mem_flatMap, List.mem_filterMap, varName?_eq_some]
  exact exists_congr fun b ↦ and_congr_right fun _ ↦
    mem_nodes_iff.trans (by simp [Block.mentions, Expr.readsNamedVar])

theorem mem_callees : c ∈ callees f.blocks ↔ f.Calls c := by
  simp only [callees, List.mem_flatMap, List.mem_filterMap]
  refine exists_congr fun b ↦ and_congr_right fun _ ↦ ?_
  rw [← mem_nodes_iff]
  simp

/-- Every block is gone through. -/
theorem mem_varNames_order :
    n ∈ varNames (f.order.filterMap (f.blocks[·]?)) ↔ n ∈ varNames f.blocks := by
  have hblocks : ∀ b, b ∈ f.order.filterMap (f.blocks[·]?) ↔ b ∈ f.blocks := by
    intro b
    rw [List.mem_filterMap, List.mem_iff_getElem?]
    refine exists_congr fun i ↦ and_iff_right_of_imp fun hi ↦ ?_
    rw [f.order_perm.mem_iff, List.mem_range]
    exact (List.getElem?_eq_some_iff.1 hi).1
  simp only [varNames, List.mem_flatMap, hblocks]

theorem mem_params : n ∈ f.params ↔ ∃ i < f.numParams, n = paramName i := by
  simp only [params, List.mem_map, List.mem_range, eq_comm]

end FunctionBody

/-! ### Spelling -/

theorem numberedName_injective : Function.Injective numberedName :=
  append_toString_injective "v"

theorem argName_injective : Function.Injective argName := fun _ _ h ↦
  Nat.succ_injective (append_toString_injective "arg" h)

theorem paramName_injective : Function.Injective paramName := fun _ _ h ↦
  Nat.succ_injective (append_toString_injective "a" h)

/-- The text has a first character, and it is none of `cs`. -/
def headAvoids (cs : List Char) (s : String) : Bool :=
  s.toList.head?.any (· ∉ cs)

theorem headAvoids_append {cs : List Char} {s : String} (h : headAvoids cs s = true)
    (t : String) : headAvoids cs (s ++ t) = true := by
  unfold headAvoids at h ⊢
  rw [String.toList_append]
  cases hs : s.toList with
  | nil => rw [hs] at h; cases h
  | cons c cs => rwa [hs] at h

theorem headAvoids_of_mem_variants {cs : List Char} {nm w : String} {ks : List ℕ}
    (h : headAvoids cs nm = true) (hw : w ∈ variants nm ks) : headAvoids cs w = true := by
  rcases List.mem_cons.1 hw with rfl | hw
  · exact h
  · obtain ⟨k, -, rfl⟩ := List.mem_map.1 hw
    exact headAvoids_append h _

theorem headAvoids_argName (i : ℕ) : headAvoids ['a'] (argName i) = false := by
  rw [headAvoids, argName, String.toList_append]
  rfl

/-- A name that starts neither with `v` nor with `t` is no local. -/
theorem isTempName_eq_false {s : String} (h : headAvoids ['v', 't'] s = true) :
    isTempName s = false := by
  unfold headAvoids at h
  unfold isTempName
  split
  · next c d ds hs =>
    rw [hs] at h
    simp_all
  · rfl

theorem isTempName_paramName (i : ℕ) : isTempName (paramName i) = false :=
  isTempName_eq_false (headAvoids_append (by decide) _)

/-- Stack arrays are not spelled like locals. -/
theorem StackArrays.isTempName_eq_false (A : StackArrays) {n : String} (h : n ∈ A.names) :
    isTempName n = false := by
  obtain ⟨k, rfl | rfl⟩ := A.spelled n h
  · exact Ldu.isTempName_eq_false (headAvoids_append (by decide) _)
  · exact Ldu.isTempName_eq_false (headAvoids_append (by decide) _)

/-- A number is spelled with digits, at least one. -/
theorem toList_toString_nat (k : ℕ) :
    ∃ d ds, (toString k).toList = d :: ds ∧ ∀ c ∈ d :: ds, c.isDigit = true := by
  have hlist : (toString k).toList = Nat.toDigits 10 k := Nat.toList_repr
  rw [hlist]
  cases hk : Nat.toDigits 10 k with
  | nil => exact absurd hk Nat.toDigits_ne_nil
  | cons d ds =>
    exact ⟨d, ds, rfl, fun c hc ↦
      Nat.isDigit_of_mem_toDigits (by decide) (by decide) (hk ▸ hc : c ∈ Nat.toDigits 10 k)⟩

theorem isTempName_numberedName (k : ℕ) : isTempName (numberedName k) = true := by
  obtain ⟨d, ds, hk, hdigits⟩ := toList_toString_nat k
  rw [isTempName, numberedName, String.toList_append, hk]
  exact List.all_eq_true.2 hdigits

theorem argName_ne_paramName (i j : ℕ) : argName i ≠ paramName j := by
  intro h
  obtain ⟨d, ds, hj, hdigits⟩ := toList_toString_nat (j + 1)
  have h := congrArg String.toList h
  rw [argName, paramName, String.toList_append, String.toList_append, hj] at h
  have hd : 'r' = d := (List.cons.inj (List.cons.inj h).2).1
  exact absurd (hdigits d List.mem_cons_self) (hd ▸ by decide)

/-! ### What the rules want -/

section Wants

variable {g : List Block} {r : NameRequest}

theorem wants_resultRequest {usedReturn : Bool} (h : r ∈ resultRequest g usedReturn) :
    r.2 = ["result"] := by
  dsimp only [resultRequest] at h
  split at h
  · split at h
    · exact congrArg Prod.snd (List.mem_singleton.1 h)
    · cases h
  · cases h

theorem wants_inductionRequests {loops : List (ℕ × List ℕ)} {ivs : List (ℕ × String)}
    (h : r ∈ inductionRequests loops ivs) : ∀ w ∈ r.2, w ∈ inductionPool := by
  obtain ⟨p, -, rfl⟩ := List.mem_map.1 h
  intro w hw
  rcases List.mem_cons.1 hw with rfl | hw
  · rw [List.getD_eq_getElem?_getD]
    cases hget : inductionPool[p.1]? with
    | none => decide
    | some v => exact List.mem_of_getElem? hget
  · exact hw

theorem wants_apiRequest {st : Stmt} (h : apiRequest st = some r) :
    ∃ a ∈ apiNames, r.2 = variants a.2 [2, 3, 4, 5, 6] := by
  simp only [apiRequest, Option.bind_eq_bind, Option.bind_eq_some_iff, Option.pure_def,
    Option.some.injEq] at h
  obtain ⟨d, -, callee, -, a, ha, rfl⟩ := h
  exact ⟨a, List.mem_of_find?_eq_some ha, rfl⟩

theorem wants_argRequests {e : Expr} (h : r ∈ argRequests e) :
    ∃ a ∈ apiArgs, r.2 = variants a.2.2 [2, 3, 4, 5, 6] := by
  obtain ⟨a, ha, h⟩ := List.mem_filterMap.1 h
  simp only [Option.bind_eq_bind, Option.bind_eq_some_iff, Option.pure_def,
    Option.some.injEq] at h
  obtain ⟨callee, -, -, -, arg, -, n, -, rfl⟩ := h
  exact ⟨a, ha, rfl⟩

theorem wants_roleRequest {nm : String} (h : roleRequest g nm = some r) :
    ∃ w ∈ ["flag", "str", "count"], r.2 = variants w [2, 3, 4] := by
  dsimp only [roleRequest] at h
  split at h
  · cases h
  · split at h
    · obtain rfl := Option.some.inj h
      exact ⟨"flag", by decide, rfl⟩
    · split at h
      · obtain rfl := Option.some.inj h
        exact ⟨"str", by decide, rfl⟩
      · split at h
        · obtain rfl := Option.some.inj h
          exact ⟨"count", by decide, rfl⟩
        · cases h

end Wants

namespace FunctionBody

variable {f : FunctionBody} {x n c : String} {i : ℕ}

/-- No rule for locals wants a name of the kind `arg1`. -/
theorem headAvoids_wishes {r : NameRequest} (hr : r ∈ f.wishes) {w : String} (hw : w ∈ r.2) :
    headAvoids ['a'] w = true := by
  simp only [wishes, List.mem_append, or_assoc] at hr
  rcases hr with hr | hr | hr | hr | hr
  · rw [wants_resultRequest hr] at hw
    exact List.mem_singleton.1 hw ▸ by decide
  · have hpool : ∀ v ∈ inductionPool, headAvoids ['a'] v = true := by decide
    exact hpool w (wants_inductionRequests hr w hw)
  · obtain ⟨b, -, hr⟩ := List.mem_flatMap.1 hr
    obtain ⟨st, -, hr⟩ := List.mem_filterMap.1 hr
    obtain ⟨a, ha, hwants⟩ := wants_apiRequest hr
    have htable : ∀ a ∈ apiNames, headAvoids ['a'] a.2 = true := by decide
    exact headAvoids_of_mem_variants (htable a ha) (hwants ▸ hw)
  · obtain ⟨b, -, hr⟩ := List.mem_flatMap.1 hr
    obtain ⟨e, -, hr⟩ := List.mem_flatMap.1 hr
    obtain ⟨a, ha, hwants⟩ := wants_argRequests hr
    have htable : ∀ a ∈ apiArgs, headAvoids ['a'] a.2.2 = true := by decide
    exact headAvoids_of_mem_variants (htable a ha) (hwants ▸ hw)
  · obtain ⟨nm, -, hr⟩ := List.mem_filterMap.1 hr
    obtain ⟨v, hv, hwants⟩ := wants_roleRequest hr
    have htable : ∀ v ∈ ["flag", "str", "count"], headAvoids ['a'] v = true := by decide
    exact headAvoids_of_mem_variants (htable v hv) (hwants ▸ hw)

/-- A request is for a local, or is the one for a parameter. -/
theorem requests_cases {r : NameRequest} (hr : r ∈ f.requests) :
    (isTempName r.1 = true ∧ ∀ w ∈ r.2, headAvoids ['a'] w = true) ∨
      ∃ i < f.numParams, r = (paramName i, [argName i]) := by
  rcases List.mem_append.1 hr with hr | hr
  · obtain ⟨hr, hlocal⟩ := List.mem_filter.1 hr
    exact .inl ⟨hlocal, fun w hw ↦ headAvoids_wishes hr hw⟩
  · obtain ⟨i, hi, rfl⟩ := List.mem_map.1 hr
    exact .inr ⟨i, List.mem_range.1 hi, rfl⟩

/-! ### The aliases -/

section Aliases

/-- What `compute_autonames` leaves. -/
theorem served : Naming.Served f.marked f.requests f.computeAutonames :=
  Naming.served_giveAll _ _

theorem mem_marked : n ∈ f.marked ↔ n ∈ f.params ∨ f.Occurs n ∨ f.Calls n := by
  rw [marked, List.mem_append, List.mem_append, mem_varNames, mem_callees, or_assoc]

/-- The names with an alias are the locals that occur, stack arrays apart, besides those the
rules reached. -/
theorem mem_keys_iff :
    x ∈ (f.computeDisplayRenumber f.computeAutonames.given).keys ↔
      x ∈ f.computeAutonames.given.keys ∨
        f.Occurs x ∧ isTempName x = true ∧ x ∉ f.arrays.names := by
  rw [computeDisplayRenumber, Alias.keys_append, List.mem_append, Alias.keys_number, appearing,
    List.mem_eraseDups, List.mem_filter, mem_varNames_order, mem_varNames]
  simp only [renumberable, Bool.and_eq_true, decide_eq_true_eq]
  tauto

/-- Aliases that `compute_autonames` gives are of no use elsewhere in the body. -/
theorem names_autonames {v : String} (hv : v ∈ f.computeAutonames.given.names) :
    ¬f.Occurs v ∧ ¬f.Calls v := by
  have := f.served.fresh v hv
  rw [mem_marked] at this
  tauto

/-- Aliases that the renumbering gives. -/
theorem names_number {v : String}
    (hv : v ∈ (f.computeDisplayRenumber f.computeAutonames.given).names) :
    v ∈ f.computeAutonames.given.names ∨
      isTempName v = true ∧ v ∉ f.computeAutonames.given.names ∧ ¬f.Calls v := by
  rw [computeDisplayRenumber, Alias.names_append, List.mem_append] at hv
  refine hv.imp_right fun hv ↦ ?_
  have hfree := Alias.notMem_of_mem_names_number numberedName_injective hv
  obtain ⟨k, rfl⟩ := Alias.exists_of_mem_names_number hv
  rw [List.mem_append, List.mem_append, not_or, not_or, mem_callees] at hfree
  exact ⟨isTempName_numberedName k, hfree.1.2, hfree.2⟩

theorem nodup_names : (f.computeDisplayRenumber f.computeAutonames.given).names.Nodup := by
  rw [computeDisplayRenumber, Alias.names_append]
  refine f.served.nodup.append (Alias.nodup_names_number numberedName_injective) ?_
  intro v hv hv'
  have hfree := Alias.notMem_of_mem_names_number numberedName_injective hv'
  exact hfree (List.mem_append_left _ (List.mem_append_right _ hv))

/-- A variable of the body shown as it is is spelled like no local, unless it has an alias. -/
theorem isTempName_of_kept (hx : f.Occurs x)
    (hkept : x ∉ (f.computeDisplayRenumber f.computeAutonames.given).keys) :
    isTempName x = false := by
  rw [mem_keys_iff, not_or] at hkept
  by_contra htemp
  rw [Bool.not_eq_false] at htemp
  refine hkept.2 ⟨hx, htemp, fun harr ↦ ?_⟩
  rw [f.arrays.isTempName_eq_false harr] at htemp
  cases htemp

/-- Only locals and parameters have aliases. -/
theorem of_mem_keys (hx : x ∈ (f.computeDisplayRenumber f.computeAutonames.given).keys) :
    isTempName x = true ∨ ∃ i < f.numParams, x = paramName i := by
  rcases mem_keys_iff.1 hx with hkey | ⟨-, htemp, -⟩
  · obtain ⟨p, hp, rfl⟩ := List.mem_map.1 hkey
    obtain ⟨ws, hr, -⟩ := f.served.asked p hp
    exact (requests_cases hr).imp And.left fun ⟨i, hi, hpi⟩ ↦ ⟨i, hi, (Prod.mk.inj hpi).1⟩
  · exact .inl htemp

/-- A parameter gets its name for display unless that is in use. -/
theorem paramName_mem_keys_iff (hi : i < f.numParams) :
    paramName i ∈ (f.computeDisplayRenumber f.computeAutonames.given).keys ↔
      ¬f.Occurs (argName i) ∧ ¬f.Calls (argName i) := by
  rw [mem_keys_iff, isTempName_paramName]
  constructor
  · rintro (hkey | ⟨-, h, -⟩)
    · obtain ⟨p, hp, hpi⟩ := List.mem_map.1 hkey
      obtain ⟨ws, hr, hws⟩ := f.served.asked p hp
      have hname : p.2 = argName i := by
        rcases requests_cases hr with ⟨h, -⟩ | ⟨j, -, hj⟩
        · rw [hpi, isTempName_paramName] at h
          cases h
        · obtain ⟨hij, rfl⟩ := Prod.mk.inj hj
          obtain rfl := paramName_injective (hpi.symm.trans hij)
          exact List.mem_singleton.1 hws
      exact names_autonames (hname ▸ List.mem_map.2 ⟨p, hp, rfl⟩)
    · cases h
  · rintro ⟨hocc, hcall⟩
    have hr : (paramName i, [argName i]) ∈ f.requests :=
      List.mem_append_right _ (List.mem_map.2 ⟨i, List.mem_range.2 hi, rfl⟩)
    refine .inl (f.served.mem_keys hr (List.mem_singleton_self _) ?_ fun y ws hy hw ↦ ?_)
    · rw [mem_marked, mem_params]
      rintro (⟨j, -, hj⟩ | h | h)
      exacts [argName_ne_paramName i j hj, hocc h, hcall h]
    · rcases requests_cases hy with ⟨-, h⟩ | ⟨j, -, hj⟩
      · have := h _ hw
        rw [headAvoids_argName] at this
        cases this
      · obtain ⟨rfl, rfl⟩ := Prod.mk.inj hj
        rw [argName_injective (List.mem_singleton.1 hw)]

end Aliases

/-! ### What is shown -/

/-- Different variables of the body are shown under different names. -/
theorem displayed_injOn (f : FunctionBody) : Set.InjOn f.displayed {n | f.Occurs n} := by
  refine Alias.display_injOn nodup_names fun x hx hkept hname ↦ ?_
  rcases names_number hname with hv | ⟨htemp, -⟩
  · exact (names_autonames hv).1 hx
  · rw [isTempName_of_kept hx hkept] at htemp
    cases htemp

/-- No variable with an alias is shown under the name of a function the body calls. -/
theorem not_calls_of_mem_keys
    (hx : x ∈ (f.computeDisplayRenumber f.computeAutonames.given).keys) :
    ¬f.Calls (f.displayed x) :=
  (names_number (Alias.display_mem_names hx)).elim (fun hv ↦ (names_autonames hv).2) (·.2.2)

/-- The variables of a body are shown under different names, none of them the name of a function
the body calls, exactly when every variable with the name of such a function is a local, or a
parameter whose name for display is in no use. -/
theorem displayed_iff (f : FunctionBody) :
    (Set.InjOn f.displayed {n | f.Occurs n} ∧ ∀ n, f.Occurs n → ¬f.Calls (f.displayed n)) ↔
      ∀ n, f.Occurs n → f.Calls n → isTempName n = true ∨
        ∃ i < f.numParams, n = paramName i ∧ ¬f.Occurs (argName i) ∧ ¬f.Calls (argName i) := by
  rw [and_iff_right f.displayed_injOn]
  refine forall_congr' fun n ↦ forall_congr' fun hn ↦ ?_
  by_cases hkey : n ∈ (f.computeDisplayRenumber f.computeAutonames.given).keys
  · refine iff_of_true (not_calls_of_mem_keys hkey) fun _ ↦ (of_mem_keys hkey).imp_right ?_
    rintro ⟨i, hi, rfl⟩
    exact ⟨i, hi, rfl, (paramName_mem_keys_iff hi).1 hkey⟩
  · rw [displayed, Alias.display_of_notMem hkey]
    refine forall_congr' fun _ ↦ ⟨False.elim, ?_⟩
    rintro (htemp | ⟨i, hi, rfl, hfree⟩)
    · rw [isTempName_of_kept hn hkey] at htemp
      cases htemp
    · exact hkey ((paramName_mem_keys_iff hi).2 hfree)

/-- A body that passes the stack array `s1` to a function that is named `s1` too. -/
def calledLikeArray : FunctionBody where
  blocks := [{ stmts := [.call (.call {} "s1" false 0 [.var { width := 8 } "s1"])], ends := .ret }]
  arrays := ⟨["s1"], fun n hn ↦ ⟨1, .inl (List.mem_singleton.1 hn)⟩⟩

/-- There the array is shown under the name of the function. -/
theorem calledLikeArray_shadows :
    ¬∀ n, calledLikeArray.Occurs n → ¬calledLikeArray.Calls (calledLikeArray.displayed n) := by
  have hoccurs : calledLikeArray.Occurs "s1" := ⟨_, List.mem_singleton_self _, by decide⟩
  have hcalls : calledLikeArray.Calls "s1" :=
    ⟨_, List.mem_singleton_self _, _, List.mem_singleton_self _, by decide⟩
  have hshown : calledLikeArray.displayed "s1" = "s1" := by decide +kernel
  exact fun h ↦ h "s1" hoccurs (hshown ▸ hcalls)

end FunctionBody

end Ldu
