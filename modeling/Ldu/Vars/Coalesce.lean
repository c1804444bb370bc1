import Ldu.Vars.Liveness
import Ldu.Vars.Narrow
import Ldu.Semantics.Reads
import Mathlib.Data.List.Sort

/-!
# Coalescing locals

`coalesce_locals` gives one name to locals that are copied into each other and that are never live
together with different values. Candidates are the copies `x = y` between scalar locals of one
declared type whose address is not taken. Two candidate locals interfere when one is live after an
assignment to the other, other than a copy from it. Classes grow along the copies while no member
of one interferes with a member of the other; each class then has the name of its best member,
and copies from a variable to itself are dropped.
-/

namespace Ldu

/-- A copy `x = y`. -/
structure Copy where
  x : String
  y : String
  deriving DecidableEq

section Pass

variable (info : VarInfo) (declType : String → String) (g : List Block)

/-- The candidate copy a statement is. -/
def Stmt.candidate : Stmt → Option Copy
  | .assign (.var _ x) (.var _ y) =>
    if x ≠ y ∧ isScalarLocal info x ∧ isScalarLocal info y ∧ !addrTaken g x ∧ !addrTaken g y ∧
      declType x = declType y then some ⟨x, y⟩ else none
  | _ => none

/-- The candidate copies, `cand`. -/
def copyCandidates : List Copy :=
  g.flatMap fun b ↦ b.stmts.filterMap (Stmt.candidate info declType g)

/-- The locals of the candidate copies in order, `uni`. -/
def copyLocals : List String :=
  ((copyCandidates info declType g).flatMap fun c ↦ [c.x, c.y]).eraseDups.insertionSort (· ≤ ·)

/-! ### Interference -/

section Interference

variable (uni : List String)

/-- The sweeps run until nothing changes, which takes at most this many (`sweeps_stable_of_lt`). -/
def uniLiveSets : LiveSets :=
  sweeps (fun n ↦ uni.contains n) g (g.length * uni.toFinset.card + 1) {}

/-- The locals that interfere with the one a statement assigns: those live after it, but for the
source of a copy. -/
def Stmt.edges (after : Finset String) : Stmt → Finset (String × String)
  | .assign (.var _ d) rhs =>
    if uni.contains d then
      (after.filter fun v ↦ v ≠ d ∧ !(match rhs with | .var _ src => v == src | _ => false)).image
        fun v ↦ (d, v)
    else ∅
  | _ => ∅

/-- The edges of a sequence of statements, and what is live before it. -/
def stmtEdges (after : Finset String) : List Stmt → Finset (String × String) × Finset String
  | [] => (∅, after)
  | st :: sts =>
    let rest := stmtEdges after sts
    (st.edges uni rest.2 ∪ rest.1, st.liveBefore (fun n ↦ uni.contains n) rest.2)

/-- The edges of block `i`. -/
def blockEdges (live : LiveSets) (i : ℕ) (b : Block) : Finset (String × String) :=
  (stmtEdges uni (live.liveOut i ∪ b.liveTerm fun n ↦ uni.contains n) b.stmts).1

/-- The interference graph, `adj`, each edge in one direction. -/
def adjEdges : Finset (String × String) :=
  (g.zipIdx.map fun (b, i) ↦ blockEdges uni (uniLiveSets g uni) i b).foldr (· ∪ ·) ∅

end Interference

end Pass

/-! ### Classes -/

/-- Two locals interfere. -/
def interferes (adj : Finset (String × String)) (a b : String) : Bool :=
  (a, b) ∈ adj ∨ (b, a) ∈ adj

/-- Some member of one class interferes with some member of the other. -/
def clash (uni : List String) (adj : Finset (String × String)) (root : String → String)
    (ra rb : String) : Bool :=
  uni.any fun a ↦ root a == ra && uni.any fun b ↦ root b == rb && interferes adj a b

/-- Merge the classes of the two sides of a copy unless they clash; `root` is the representative
that `find` returns. -/
def mergeCopy (uni : List String) (adj : Finset (String × String)) (root : String → String)
    (c : Copy) : String → String :=
  let ra := root c.x
  let rb := root c.y
  if ra = rb ∨ clash uni adj root ra rb then root
  else fun z ↦ if root z = rb then ra else root z

/-- The classes after all copies. -/
def classes (uni : List String) (adj : Finset (String × String)) (cand : List Copy) :
    String → String :=
  cand.foldl (mergeCopy uni adj) id

/-- The number after the letter of a temporary. -/
def tempNumber (nm : String) : ℕ :=
  (nm.toList.drop 1).foldl (fun k c ↦ 10 * k + (c.toNat - '0'.toNat)) 0

/-- `a` is the better name: `v` before `t`, then the lower number. -/
def better (a b : String) : Bool :=
  let ka := if a.toList.head? = some 'v' then 0 else 1
  let kb := if b.toList.head? = some 'v' then 0 else 1
  if ka ≠ kb then ka < kb else tempNumber a < tempNumber b

/-- The name of the class of `nm`. -/
def canon (uni : List String) (root : String → String) (nm : String) : String :=
  if uni.contains nm then
    (uni.filter fun e ↦ root e == root nm).foldl (fun best e ↦ if better e best then e else best) nm
  else nm

/-! ### The pass -/

/-- A copy from a variable to itself. -/
def Stmt.isSelfCopy : Stmt → Bool
  | .assign (.var _ x) (.var _ y) => x == y
  | _ => false

/-- Rename the variables of a block and drop the copies that have become trivial. -/
def Block.coalesce (f : String → String) (b : Block) : Block :=
  let b' := b.mapExprs (Expr.renameVars f)
  { b' with stmts := b'.stmts.filter fun st ↦ !st.isSelfCopy }

/-- The declaration of `c` takes over what is recorded of `o`. -/
def VarInfo.reconcile (c o : String) (info : VarInfo) : VarInfo :=
  { info with
    width :=
      match info.width.lookup o with
      | some w => (c, max ((info.width.lookup c).getD 0) w) :: info.width.filter (·.1 ≠ c)
      | none => info.width
    isFloat := if info.isFloat.contains o then c :: info.isFloat else info.isFloat
    pointer := if info.pointer.contains o then c :: info.pointer else info.pointer
    forceFloat := if info.forceFloat.contains o then c :: info.forceFloat else info.forceFloat }

/-- The new names. -/
def coalesceNames (info : VarInfo) (declType : String → String) (g : List Block) :
    String → String :=
  let uni := copyLocals info declType g
  canon uni (classes uni (adjEdges g uni) (copyCandidates info declType g))

/-- Merge the locals of each class. -/
def coalesceLocals (info : VarInfo) (declType : String → String) (g : List Block) :
    VarInfo × List Block :=
  if copyCandidates info declType g = [] then (info, g)
  else
    let f := coalesceNames info declType g
    ((copyLocals info declType g).foldl
      (fun info o ↦ if f o = o then info else info.reconcile (f o) o) info,
      g.map (Block.coalesce f))

/-! ### The candidates -/

section Candidates

variable {info : VarInfo} {declType : String → String} {g : List Block} {n : String} {c : Copy}

theorem of_mem_copyCandidates (h : c ∈ copyCandidates info declType g) :
    addrTaken g c.x = false ∧ addrTaken g c.y = false ∧ declType c.x = declType c.y := by
  obtain ⟨b, -, hb⟩ := List.mem_flatMap.1 h
  obtain ⟨st, -, hst⟩ := List.mem_filterMap.1 hb
  unfold Stmt.candidate at hst
  split at hst
  · split at hst
    · next hc =>
      obtain rfl := Option.some.inj hst
      obtain ⟨-, -, -, hx, hy, htype⟩ := hc
      exact ⟨by simpa using hx, by simpa using hy, htype⟩
    · cases hst
  · cases hst

theorem mem_copyLocals :
    n ∈ copyLocals info declType g ↔
      ∃ c ∈ copyCandidates info declType g, n = c.x ∨ n = c.y := by
  simp [copyLocals, List.mem_insertionSort, List.mem_eraseDups]

theorem copyLocals_not_taken (h : n ∈ copyLocals info declType g) : addrTaken g n = false := by
  obtain ⟨c, hc, rfl | rfl⟩ := mem_copyLocals.1 h
  · exact (of_mem_copyCandidates hc).1
  · exact (of_mem_copyCandidates hc).2.1

end Candidates

/-! ### The interference graph -/

section Interference

variable {g : List Block} {uni : List String} {a n x : String}

theorem mem_edges {after : Finset String} {st : Stmt} {p : String × String}
    (h : p ∈ st.edges uni after) : p.1 ≠ p.2 := by
  unfold Stmt.edges at h
  split at h
  · split at h
    · obtain ⟨v, hv, rfl⟩ := Finset.mem_image.1 h
      simp only [Finset.mem_filter] at hv
      exact fun heq ↦ hv.2.1 heq.symm
    · simp at h
  · simp at h

theorem mem_stmtEdges_ne {after : Finset String} {sts : List Stmt} {p : String × String}
    (h : p ∈ (stmtEdges uni after sts).1) : p.1 ≠ p.2 := by
  induction sts with
  | nil => simp [stmtEdges] at h
  | cons st sts ih =>
    unfold stmtEdges at h
    rcases Finset.mem_union.1 h with h | h
    · exact mem_edges h
    · exact ih h

theorem stmtEdges_snd (after : Finset String) (sts : List Stmt) :
    (stmtEdges uni after sts).2 = liveStmts (fun n ↦ uni.contains n) sts after := by
  induction sts with
  | nil => rfl
  | cons st sts ih =>
    unfold stmtEdges
    dsimp only
    rw [ih]
    rfl

/-- A local that is live after an assignment interferes with what is assigned, unless it is
copied. -/
theorem mem_stmtEdges {after : Finset String} {pre post : List Stmt} {ty : Ty} {rhs : Expr}
    (hx : x ∈ uni) (hne : n ≠ x) (hcopy : ∀ ty', rhs ≠ .var ty' n)
    (hlive : n ∈ liveStmts (fun n ↦ uni.contains n) post after) :
    (x, n) ∈ (stmtEdges uni after (pre ++ .assign (.var ty x) rhs :: post)).1 := by
  induction pre with
  | nil =>
    refine Finset.mem_union_left _ ?_
    rw [stmtEdges_snd]
    unfold Stmt.edges
    dsimp only
    rw [if_pos (by simpa using hx)]
    refine Finset.mem_image.2 ⟨n, Finset.mem_filter.2 ⟨hlive, ?_⟩, rfl⟩
    refine ⟨hne, ?_⟩
    cases rhs with
    | var ty' src =>
      have hsrc : n ≠ src := fun hsrc ↦ hcopy ty' (by rw [hsrc])
      simpa using hsrc
    | _ => rfl
  | cons st pre ih => exact Finset.mem_union_right _ ih

theorem mem_adjEdges {p : String × String} :
    p ∈ adjEdges g uni ↔
      ∃ i b, g[i]? = some b ∧ p ∈ blockEdges uni (uniLiveSets g uni) i b := by
  have hfold : ∀ (xs : List (Block × ℕ)),
      p ∈ (xs.map fun (b, i) ↦ blockEdges uni (uniLiveSets g uni) i b).foldr (· ∪ ·) ∅ ↔
        ∃ b i, (b, i) ∈ xs ∧ p ∈ blockEdges uni (uniLiveSets g uni) i b := by
    intro xs
    induction xs with
    | nil => simp
    | cons q xs ih =>
      obtain ⟨b, i⟩ := q
      rw [List.map_cons, List.foldr_cons, Finset.mem_union, ih]
      constructor
      · rintro (h | ⟨b', i', hmem, h⟩)
        · exact ⟨b, i, by simp, h⟩
        · exact ⟨b', i', by simp [hmem], h⟩
      · rintro ⟨b', i', hmem, h⟩
        rcases List.mem_cons.1 hmem with heq | hmem
        · obtain ⟨rfl, rfl⟩ := Prod.mk.inj heq
          exact .inl h
        · exact .inr ⟨b', i', hmem, h⟩
  unfold adjEdges
  rw [hfold, exists_comm]
  simp only [List.mk_mem_zipIdx_iff_getElem?]

theorem interferes_self : interferes (adjEdges g uni) a a = false := by
  have hnot : (a, a) ∉ adjEdges g uni := by
    intro h
    obtain ⟨i, b, -, h⟩ := mem_adjEdges.1 h
    exact mem_stmtEdges_ne h rfl
  simp [interferes, hnot]

theorem interferes_comm {adj : Finset (String × String)} (a b : String) :
    interferes adj a b = interferes adj b a := by
  unfold interferes
  rw [decide_eq_decide]
  exact or_comm

/-- The sweeps find what is live on any path. -/
theorem mem_liveStmts_of_liveThrough {i : ℕ} {b : Block} {post : List Stmt} (hn : n ∈ uni)
    (h : LiveThrough post (LiveEnd g i b) n) :
    n ∈ liveStmts (fun n ↦ uni.contains n) post
      ((uniLiveSets g uni).liveOut i ∪ b.liveTerm fun n ↦ uni.contains n) := by
  have hkeep : uni.contains n = true := by simpa using hn
  have hstable : (uniLiveSets g uni).Stable (fun n ↦ uni.contains n) g :=
    sweeps_stable_of_lt (U := uni.toFinset) (fun n hn ↦ by simpa using hn) (Nat.lt_succ_self _)
  rw [mem_liveStmts hkeep]
  refine h.mono fun hend ↦ ?_
  rcases hend with hterm | ⟨k, hread⟩
  · exact Finset.mem_union_right _ (mem_liveTerm hkeep hterm)
  · exact Finset.mem_union_left _ (mem_liveOut_of_stable hstable hkeep hread)

end Interference

/-! ### The classes -/

/-- The members of a class have one declared type and do not interfere. -/
structure ClassesOk (uni : List String) (adj : Finset (String × String))
    (declType : String → String) (root : String → String) : Prop where
  type : ∀ a ∈ uni, ∀ b ∈ uni, root a = root b → declType a = declType b
  apart : ∀ a ∈ uni, ∀ b ∈ uni, root a = root b → interferes adj a b = false

section Classes

variable {uni : List String} {adj : Finset (String × String)} {declType root : String → String}

theorem ClassesOk.mergeCopy (h : ClassesOk uni adj declType root) {c : Copy} (hx : c.x ∈ uni)
    (hy : c.y ∈ uni) (htype : declType c.x = declType c.y) :
    ClassesOk uni adj declType (mergeCopy uni adj root c) := by
  unfold Ldu.mergeCopy
  dsimp only
  split
  · exact h
  · next hclash =>
    rw [not_or, Bool.not_eq_true] at hclash
    obtain ⟨-, hclash⟩ := hclash
    have happart : ∀ a ∈ uni, ∀ b ∈ uni, root a = root c.x → root b = root c.y →
        interferes adj a b = false := by
      intro a ha b hb hra hrb
      refine Bool.eq_false_iff.2 fun hint ↦ Bool.eq_false_iff.1 hclash ?_
      unfold clash
      rw [List.any_eq_true]
      refine ⟨a, ha, ?_⟩
      rw [Bool.and_eq_true, beq_iff_eq, List.any_eq_true]
      exact ⟨hra, b, hb, by simp [hrb, hint]⟩
    refine ⟨fun a ha b hb hab ↦ ?_, fun a ha b hb hab ↦ ?_⟩
    · split at hab <;> split at hab
      · next hra hrb => exact h.type a ha b hb (hra.trans hrb.symm)
      · next hra hrb =>
        rw [h.type a ha c.y hy hra, ← htype]
        exact h.type c.x hx b hb hab
      · next hra hrb =>
        rw [h.type a ha c.x hx hab, htype]
        exact h.type c.y hy b hb hrb.symm
      · exact h.type a ha b hb hab
    · split at hab <;> split at hab
      · next hra hrb => exact h.apart a ha b hb (hra.trans hrb.symm)
      · next hra hrb =>
        rw [interferes_comm]
        exact happart b hb a ha hab.symm hra
      · next hra hrb => exact happart a ha b hb hab hrb
      · exact h.apart a ha b hb hab

theorem classesOk_foldl {cand : List Copy} (h : ClassesOk uni adj declType root)
    (hcand : ∀ c ∈ cand, c.x ∈ uni ∧ c.y ∈ uni ∧ declType c.x = declType c.y) :
    ClassesOk uni adj declType (cand.foldl (mergeCopy uni adj) root) := by
  induction cand generalizing root with
  | nil => exact h
  | cons c cand ih =>
    obtain ⟨hx, hy, htype⟩ := hcand c (by simp)
    exact ih (h.mergeCopy hx hy htype) fun c hc ↦ hcand c (by simp [hc])

/-- The name of a class is the name of a member. -/
theorem canon_spec {nm : String} (h : nm ∈ uni) :
    canon uni root nm ∈ uni ∧ root (canon uni root nm) = root nm := by
  have hfold : ∀ (es : List String) (best : String), best ∈ uni ∧ root best = root nm →
      (∀ e ∈ es, e ∈ uni ∧ root e = root nm) →
      es.foldl (fun best e ↦ if better e best then e else best) best ∈ uni ∧
        root (es.foldl (fun best e ↦ if better e best then e else best) best) = root nm := by
    intro es
    induction es with
    | nil => exact fun best hbest _ ↦ hbest
    | cons e es ih =>
      intro best hbest hes
      refine ih _ ?_ fun e he ↦ hes e (by simp [he])
      dsimp only
      split
      · exact hes e (by simp)
      · exact hbest
  unfold canon
  rw [if_pos (by simpa using h)]
  refine hfold _ nm ⟨h, rfl⟩ fun e he ↦ ?_
  simpa using List.mem_filter.1 he

end Classes

end Ldu
