import Ldu.Vars.Info

/-!
# Narrowing temporaries

`narrow_temp_widths` declares 8-byte temporaries with 4 bytes when each of their definitions has
a value that fits in 32 bits. Which definitions fit is a fixpoint over the copies from temporary
to temporary: all candidates are taken to fit, and each round drops those with a definition that
does not; at most 24 rounds are made.
-/

namespace Ldu

section Narrow

variable (info : VarInfo) (g : List Block)

/-- `n` may be narrowed: an 8-byte integer temporary whose address is not taken, with at least
one definition that does not read it. -/
def isCand (n : String) : Bool :=
  info.width.lookup n == some 8 && !(defsOf g n).isEmpty &&
    !(info.pointer.contains n || info.isFloat.contains n) &&
    !(addrTaken g n || info.arrayLocals.contains n || info.conflictRaw.contains n ||
      info.paramStructs.contains n) &&
    isTempName n && (defsOf g n).any (Expr.countVarReads · n == 0)

/-- The candidates. -/
def candidates : List String :=
  (info.width.map Prod.fst).filter (isCand info g)

/-- The value of an expression fits in 32 bits, given the candidates that fit. -/
def fits32 (cand fits : List String) : Expr → Bool
  | .const _ c => -0x80000000 ≤ c.toInt && c.toInt ≤ 0x7FFFFFFF
  | .cast ty _ a => ty.width ≤ 4 || fits32 cand fits a
  | .var _ n => if n ∈ cand then fits.contains n else info.widthOf n ≤ 4
  | .mem ty _ => 0 < ty.width && ty.width ≤ 4
  | .unary ty _ a => (0 < ty.width && ty.width ≤ 4) || fits32 cand fits a
  | .binary ty op a b =>
    (0 < ty.width && ty.width ≤ 4) ||
      match op with
      | .band | .bor | .bxor => fits32 cand fits a && fits32 cand fits b
      | .shr => fits32 cand fits a
      | _ => false
  | .ternary _ _ b c => fits32 cand fits b && fits32 cand fits c
  | .call _ _ _ retKind _ | .callVia _ _ _ retKind _ _ => retKind == 1
  | _ => false

/-- One round: the candidates all of whose definitions fit. -/
def fitsRound (cand fits : List String) : List String :=
  cand.filter fun n ↦ (defsOf g n).all (fits32 info cand fits)

/-- Rounds until nothing changes, or the given number of them. -/
def fitsRounds (cand : List String) : ℕ → List String → List String
  | 0, fits => fits
  | k + 1, fits =>
    if fitsRound info g cand fits = fits then fits
    else fitsRounds cand k (fitsRound info g cand fits)

/-- The temporaries `narrow_temp_widths` narrows. -/
def narrow : List String :=
  fitsRounds info g (candidates info g) 24 (candidates info g)

end Narrow

/-- Read the narrowed variables with 4 bytes. -/
def Expr.setWidths (narrow : List String) : Expr → Expr :=
  rewrite fun
    | var ty n => if n ∈ narrow then some (var { ty with width := 4 } n) else none
    | _ => none

/-- Declare the narrowed variables with 4 bytes. -/
def VarInfo.setWidths (narrow : List String) (info : VarInfo) : VarInfo :=
  { info with
    width := info.width.map fun (n, w) ↦ (n, if n ∈ narrow then 4 else w)
    isLl := info.isLl.filter (· ∉ narrow) }

/-- Narrow the temporaries that fit in 32 bits. -/
def narrowTempWidths (info : VarInfo) (g : List Block) : VarInfo × List Block :=
  let narrow := narrow info g
  if narrow = [] then (info, g)
  else (info.setWidths narrow, g.map (·.mapExprs (Expr.setWidths narrow)))

/-! ### The rounds -/

section Rounds

variable {info : VarInfo} {g : List Block} {cand fits fits' : List String}

theorem fits32_mono (h : fits ⊆ fits') :
    ∀ e : Expr, fits32 info cand fits e = true → fits32 info cand fits' e = true
  | .const _ _, he | .mem _ _, he | .call _ _ _ _ _, he | .callVia _ _ _ _ _ _, he => by
    simpa only [fits32] using he
  | .cast _ _ a, he => by
    simp only [fits32, Bool.or_eq_true] at he ⊢
    exact he.imp_right (fits32_mono h a)
  | .var _ n, he => by
    simp only [fits32] at he ⊢
    split at he
    · next hn =>
      rw [if_pos hn]
      simpa using h (by simpa using he)
    · next hn => rwa [if_neg hn]
  | .unary _ _ a, he => by
    simp only [fits32, Bool.or_eq_true] at he ⊢
    exact he.imp_right (fits32_mono h a)
  | .binary _ op a b, he => by
    simp only [fits32, Bool.or_eq_true] at he ⊢
    refine he.imp_right fun he ↦ ?_
    cases op
    case band | bor | bxor =>
      rw [Bool.and_eq_true] at he ⊢
      exact ⟨fits32_mono h a he.1, fits32_mono h b he.2⟩
    case shr => exact fits32_mono h a he
    all_goals cases he
  | .ternary _ _ b c, he => by
    simp only [fits32, Bool.and_eq_true] at he ⊢
    exact ⟨fits32_mono h b he.1, fits32_mono h c he.2⟩
  | .reg _ _, he | .addrOf _ _, he | .str _ _, he => by simp [fits32] at he

theorem fitsRound_mono (h : fits ⊆ fits') :
    (fitsRound info g cand fits).Sublist (fitsRound info g cand fits') := by
  refine List.monotone_filter_right _ fun n hn ↦ ?_
  rw [List.all_eq_true] at hn ⊢
  exact fun e he ↦ fits32_mono h e (hn e he)

/-- A round that changes something drops a candidate, so as many rounds as there are candidates
reach a fixpoint. -/
theorem fitsRound_fitsRounds (k : ℕ) (hsub : (fitsRound info g cand fits).Sublist fits)
    (hlen : fits.length ≤ k) :
    fitsRound info g cand (fitsRounds info g cand k fits) = fitsRounds info g cand k fits := by
  induction k generalizing fits with
  | zero =>
    obtain rfl := List.length_eq_zero_iff.1 (Nat.le_zero.1 hlen)
    exact List.sublist_nil.1 hsub
  | succ k ih =>
    unfold fitsRounds
    split
    · next heq => exact heq
    · next hne =>
      refine ih (fitsRound_mono hsub.subset) ?_
      have hlt : (fitsRound info g cand fits).length < fits.length :=
        hsub.length_le.lt_of_ne fun heq ↦ hne (hsub.eq_of_length heq)
      omega

/-- With at most 24 candidates the rounds reach a fixpoint. -/
theorem fitsRound_narrow (h : (candidates info g).length ≤ 24) :
    fitsRound info g (candidates info g) (narrow info g) = narrow info g :=
  fitsRound_fitsRounds 24 (List.filter_sublist ..) h

end Rounds

end Ldu
