import Ldu.Naming.Symbols

/-!
# Seeded names

A symbol that is seeded for the address of a function names it before anything else, and the passes
that look for better names keep every name that is not a placeholder. But they tell a placeholder by
its text, so that a seeded name that starts with `fun_` is replaced too: a seeded name is final,
whatever the program around it is, if and only if it does not start so (`final_iff`).
-/

namespace Ldu

namespace Naming

open Listing
open Annotations hiding funcAt

theorem getElem?_namesAfter_of_not_placeholder {env : Env} {e : Engine} {i : ℕ} {f : Func}
    (hf : (firstNames e)[i]? = some f) (hnamed : isPlaceholder f.name = false) (k : ℕ) :
    (namesAfter env e k)[i]? = some f :=
  foldl_upgradeAt_keeps _ _ hf hnamed

theorem namesAfter_length (env : Env) (e : Engine) :
    namesAfter env e (upgrades env e).length = resolveSymbols env e := by
  rw [namesAfter, List.take_length, resolveSymbols]

/-- The function at an address received the fallback. -/
def receivedFallback (e : Engine) (rva : ℕ) : Prop :=
  knownName e rva = none

/-- The names of the functions at an address are final: the symbol seeded for them is their name in
the end, and unless they received the fallback they are renamed at no moment. -/
structure Final (env : Env) (e : Engine) (rva : ℕ) : Prop where
  seeded : ∀ (i : ℕ) (f : Listing.Func) (sym : Field 95), e.funcs[i]? = some f → f.rva = rva →
    seededSymbol e.symbols rva = some sym → ((resolveSymbols env e)[i]?).map (·.name) = some sym
  kept : ∀ (i : ℕ) (f : Listing.Func), e.funcs[i]? = some f → f.rva = rva →
    ¬receivedFallback e rva → ∀ k, (namesAfter env e k)[i]? = (firstNames e)[i]?

/-! ### Names that are not seeded -/

theorem knownName_of_seeded {e : Engine} {rva : ℕ} {sym : Field 95}
    (h : seededSymbol e.symbols rva = some sym) : knownName e rva = some sym := by
  rw [knownName, h]

theorem flirtMatch_not_placeholder {first : Insn} {nm : Bytes} (h : flirtMatch first = some nm) :
    isPlaceholder (strlcpy 95 nm) = false := by
  unfold flirtMatch at h
  split_ifs at h <;> cases h <;> decide

/-- Only a seeded name may look like a placeholder. -/
theorem isPlaceholder_knownName {e : Engine} {rva : ℕ} {name : Field 95}
    (hname : knownName e rva = some name) (hseeded : seededSymbol e.symbols rva = none) :
    isPlaceholder name = false := by
  rw [knownName, hseeded] at hname
  dsimp only at hname
  split at hname
  · cases hname
    cases hdll : e.isDll <;> simp only [entryName, hdll] <;> decide
  · split at hname
    · next imp himp =>
      cases hname
      rw [isPlaceholder, bytes_buf_append _ (by decide +kernel) (by decide +kernel)]
      rfl
    · obtain ⟨idx, -, hname⟩ := Option.bind_eq_some_iff.1 hname
      obtain ⟨first, -, hname⟩ := Option.bind_eq_some_iff.1 hname
      obtain ⟨nm, hnm, rfl⟩ := Option.map_eq_some_iff.1 hname
      exact flirtMatch_not_placeholder hnm

/-- The names at an address are final if the symbol that is seeded for it is no placeholder. -/
theorem final_of_not_placeholder (env : Env) {e : Engine} {rva : ℕ}
    (hsym : ∀ sym, seededSymbol e.symbols rva = some sym → isPlaceholder sym = false) :
    Final env e rva := by
  have hkept : ∀ (i : ℕ) (f : Listing.Func) (name : Field 95), e.funcs[i]? = some f →
      f.rva = rva → knownName e rva = some name → (firstNames e)[i]? = some { f with name } ∧
        ∀ k, (namesAfter env e k)[i]? = some { f with name } := by
    intro i f name hf hrva hname
    have hfirst : (firstNames e)[i]? = some { f with name } := by
      rw [getElem?_firstNames, hf, Option.map_some, hrva, hname]
      rfl
    refine ⟨hfirst, getElem?_namesAfter_of_not_placeholder hfirst ?_⟩
    cases hseeded : seededSymbol e.symbols rva with
    | none => exact isPlaceholder_knownName hname hseeded
    | some sym =>
      obtain rfl : sym = name :=
        Option.some.inj ((knownName_of_seeded hseeded).symm.trans hname)
      exact hsym sym hseeded
  refine ⟨fun i f sym hf hrva hseeded ↦ ?_, fun i f hf hrva hknown k ↦ ?_⟩
  · have hlast := (hkept i f sym hf hrva (knownName_of_seeded hseeded)).2
    rw [← namesAfter_length, hlast, Option.map_some]
  · obtain ⟨name, hname⟩ := Option.ne_none_iff_exists'.1 hknown
    obtain ⟨hfirst, hafter⟩ := hkept i f name hf hrva hname
    rw [hafter, hfirst]

/-! ### Seeded names that start with `fun_` -/

/-- A program of one function, `mov rax, [2000h]; ret`. -/
def getter (symbols : List Symbol) (rva : ℕ) : Engine where
  image := []
  symbols := symbols
  insns := [{ rva, size := 7, refType := .data, refTarget := 0x2000, mnemonic := "mov",
              operands := "rax, [0x2000]" },
            { rva := rva + 7, size := 1, mnemonic := "ret" }]
  funcs := [⟨rva, 8, 1, 0⟩]

theorem insnIndexExact_getter (symbols : List Symbol) (rva : ℕ) :
    insnIndexExact (getter symbols rva) rva = some 0 := by
  simp [insnIndexExact, getter, BinarySearch.searchFor, BinarySearch.lowerBound]

theorem stringUpgrades_getter (symbols : List Symbol) (rva : ℕ) (env : Env) :
    stringUpgrades (getter symbols rva) env = [] := by
  have hhits : hitsFrom (getter symbols rva) (getter symbols rva).insns = [] := rfl
  rw [stringUpgrades, hhits]
  split <;> rfl

/-- A placeholder is replaced by a name that says what the function reads. -/
theorem resolveSymbols_getter {symbols : List Symbol} {rva : ℕ} {sym : Field 95}
    (hseeded : seededSymbol symbols rva = some sym) (hplace : isPlaceholder sym = true) :
    ((resolveSymbols {} (getter symbols rva))[0]?).map (·.name) = some (buf (lit "get_2000")) := by
  have hfirst : firstNames (getter symbols rva) = [⟨⟨rva, 8, 1, 0⟩, sym⟩] := by
    have hknown : knownName (getter symbols rva) rva = some sym := knownName_of_seeded hseeded
    change [(⟨⟨rva, 8, 1, 0⟩, (knownName (getter symbols rva) rva).getD _⟩ : Func)] = _
    rw [hknown]
    rfl
  have hname : accessorName (getter symbols rva) [⟨⟨rva, 8, 1, 0⟩, sym⟩] ⟨⟨rva, 8, 1, 0⟩, sym⟩ =
      some (buf (lit "get_2000")) := by
    have hidx := insnIndexExact_getter symbols rva
    have htext : lit "get_" ++ hex 0x2000 = lit "get_2000" := by decide +kernel
    have hmem : memFirst "rax, [0x2000]" = false := by decide +kernel
    rw [accessorName, hidx]
    simp [getter, accessName, hmem, htext]
  have hupgrade : upgradeAt [⟨⟨rva, 8, 1, 0⟩, sym⟩] ⟨0, accessorName (getter symbols rva)⟩ =
      [⟨⟨rva, 8, 1, 0⟩, buf (lit "get_2000")⟩] := by
    simp only [upgradeAt, List.getElem?_cons_zero, hplace, hname]
    simp [nameTaken]
  have hrun : resolveSymbols {} (getter symbols rva) =
      (thunkUpgrades (getter symbols rva) {}).foldl upgradeAt
        [⟨⟨rva, 8, 1, 0⟩, buf (lit "get_2000")⟩] := by
    rw [resolveSymbols, upgrades, stringUpgrades_getter, hfirst, List.nil_append,
      List.foldl_append, ← hupgrade]
    rfl
  have hnamed : isPlaceholder (buf (lit "get_2000")) = false := by decide +kernel
  rw [hrun, foldl_upgradeAt_keeps _ _ (List.getElem?_cons_zero ..) hnamed]
  rfl

/-- A seeded name is final in every program if and only if it does not start with `fun_`. -/
theorem final_iff (symbols : List Symbol) (rva : ℕ) :
    (∀ env (e : Engine), e.symbols = symbols → Final env e rva) ↔
      ∀ sym, seededSymbol symbols rva = some sym → isPlaceholder sym = false := by
  constructor
  · intro hfinal sym hseeded
    by_contra hplace
    have hname := (hfinal {} (getter symbols rva) rfl).seeded 0 _ sym rfl rfl hseeded
    rw [resolveSymbols_getter hseeded (by simpa using hplace)] at hname
    obtain rfl := Option.some.inj hname
    exact hplace (by decide +kernel)
  · rintro hsym env e rfl
    exact final_of_not_placeholder env hsym

theorem not_final_getter :
    ¬Final {} (getter [⟨0x1000, strlcpy 95 (lit "fun_handler")⟩] 0x1000) 0x1000 := by
  intro hfinal
  have hname := hfinal.seeded 0 _ (strlcpy 95 (lit "fun_handler")) rfl rfl rfl
  have hseeded : seededSymbol [⟨0x1000, strlcpy 95 (lit "fun_handler")⟩] 0x1000 =
      some (strlcpy 95 (lit "fun_handler")) := rfl
  rw [resolveSymbols_getter hseeded rfl] at hname
  revert hname
  decide +kernel

end Naming

end Ldu
