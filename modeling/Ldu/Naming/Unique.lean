import Ldu.Naming.Seeded

/-!
# Better names are unique

A better name is tried against the names of all other functions as they are then, cut to the length
that is stored. Whatever is renamed later gets a name that differs from it again, and the other
names stay: a function that was renamed keeps a name that no other function has
(`uniqueName_of_renamed`).
-/

namespace Ldu

namespace Naming

open Annotations hiding funcAt

variable {env : Env} {e : Engine} {funcs : List Func} {u : Upgrade} {name : Field 95} {i k : ℕ}

/-- No other function has the name of the function with the number `i`. -/
def UniqueName (funcs : List Func) (i : ℕ) : Prop :=
  ∀ f j g, funcs[i]? = some f → funcs[j]? = some g → j ≠ i → g.name ≠ f.name

/-- An attempt gives its function a name. -/
def Renames (funcs : List Func) (u : Upgrade) : Prop :=
  ∃ f name, funcs[u.index]? = some f ∧ isPlaceholder f.name ∧ u.propose funcs f = some name ∧
    nameTaken funcs name u.index = false

/-- One of the passes renames the function with the number `i`. -/
def Renamed (env : Env) (e : Engine) (i : ℕ) : Prop :=
  ∃ k u, (upgrades env e)[k]? = some u ∧ u.index = i ∧ Renames (namesAfter env e k) u

theorem nameTaken_eq_false :
    nameTaken funcs name i = false ↔ ∀ j g, funcs[j]? = some g → j ≠ i → g.name ≠ name := by
  simp only [nameTaken, List.any_eq_false, Prod.forall, List.mem_zipIdx_iff_getElem?,
    Bool.and_eq_true, decide_eq_true_eq, not_and]
  exact ⟨fun h j g hg ↦ h g j hg, fun h g j hg ↦ h j g hg⟩

/-- A name that is not taken is unique. -/
theorem uniqueName_set {f : Func} (hf : funcs[i]? = some f)
    (hfree : nameTaken funcs name i = false) :
    UniqueName (funcs.set i { f with name }) i := by
  have hlt := (List.getElem?_eq_some_iff.1 hf).1
  intro f' j g hf' hg hne
  rw [List.getElem?_set_self hlt] at hf'
  rw [List.getElem?_set_ne hne.symm] at hg
  cases hf'
  exact nameTaken_eq_false.1 hfree j g hg hne

theorem Renames.uniqueName (h : Renames funcs u) : UniqueName (upgradeAt funcs u) u.index := by
  obtain ⟨f, name, hf, hplace, hname, hfree⟩ := h
  have heq : upgradeAt funcs u = funcs.set u.index { f with name } := by
    simp [upgradeAt, hf, hplace, hname, hfree]
  rw [heq]
  exact uniqueName_set hf hfree

/-- A unique name stays unique, whichever function the next attempt renames. -/
theorem UniqueName.upgradeAt (h : UniqueName funcs i) (u : Upgrade) :
    UniqueName (upgradeAt funcs u) i := by
  obtain heq | ⟨f, name, hf, -, -, hfree, heq⟩ := upgradeAt_cases funcs u
  · rwa [heq]
  · rw [heq]
    have hlt := (List.getElem?_eq_some_iff.1 hf).1
    by_cases hi : u.index = i
    · subst hi
      exact uniqueName_set hf hfree
    · intro f' j g hf' hg hne
      rw [List.getElem?_set_ne hi] at hf'
      by_cases hj : u.index = j
      · subst hj
        rw [List.getElem?_set_self hlt] at hg
        cases hg
        -- The new name is none of the others, so not the unique one.
        exact (nameTaken_eq_false.1 hfree i f' hf' (Ne.symm hi)).symm
      · rw [List.getElem?_set_ne hj] at hg
        exact h f' j g hf' hg hne

theorem UniqueName.foldl_upgradeAt (us : List Upgrade) (h : UniqueName funcs i) :
    UniqueName (us.foldl Naming.upgradeAt funcs) i := by
  induction us generalizing funcs with
  | nil => exact h
  | cons u us ih => exact ih (h.upgradeAt u)

/-- No function that was renamed has the name of another one. -/
theorem uniqueName_of_renamed (h : Renamed env e i) : UniqueName (resolveSymbols env e) i := by
  obtain ⟨k, u, hu, rfl, hrenames⟩ := h
  obtain ⟨hlt, rfl⟩ := List.getElem?_eq_some_iff.1 hu
  have hsplit : resolveSymbols env e =
      ((upgrades env e).drop (k + 1)).foldl upgradeAt
        (upgradeAt (namesAfter env e k) (upgrades env e)[k]) := by
    rw [namesAfter, resolveSymbols, ← List.foldl_cons, ← List.foldl_append,
      ← List.drop_eq_getElem_cons hlt, List.take_append_drop]
  rw [hsplit]
  exact hrenames.uniqueName.foldl_upgradeAt _

/-- Two functions that read one variable. -/
def twoGetters : Engine where
  image := []
  insns := [{ rva := 0x1000, size := 7, refType := .data, refTarget := 0x2000, mnemonic := "mov",
              operands := "rax, [0x2000]" },
            { rva := 0x1007, size := 1, mnemonic := "ret" },
            { rva := 0x1008, size := 7, refType := .data, refTarget := 0x2000, mnemonic := "mov",
              operands := "rcx, [0x2000]" },
            { rva := 0x100F, size := 1, mnemonic := "ret" }]
  funcs := [⟨0x1000, 8, 1, 0⟩, ⟨0x1008, 8, 1, 0⟩]

theorem upgrades_twoGetters :
    upgrades {} twoGetters =
      eachFunc twoGetters (accessorName twoGetters) ++
        eachFunc twoGetters (thunkName twoGetters) := by
  have hhits : hitsFrom twoGetters twoGetters.insns = [] := rfl
  have hstrings : stringUpgrades twoGetters {} = [] := by
    rw [stringUpgrades, hhits]
    rfl
  rw [upgrades, hstrings]
  rfl

theorem uniqueName_twoGetters :
    UniqueName (resolveSymbols {} twoGetters) 0 ∧
      (resolveSymbols {} twoGetters).map (·.name) =
        [buf (lit "get_2000"), fallbackName 0x1008] := by
  constructor
  · refine uniqueName_of_renamed ⟨0, ⟨0, accessorName twoGetters⟩, ?_, rfl, ?_⟩
    · rw [upgrades_twoGetters]
      rfl
    · refine ⟨⟨⟨0x1000, 8, 1, 0⟩, fallbackName 0x1000⟩, buf (lit "get_2000"), ?_, ?_, ?_, ?_⟩
      · decide +kernel
      · decide +kernel
      · decide +kernel
      · decide +kernel
  · rw [resolveSymbols, upgrades_twoGetters]
    decide +kernel

end Naming

end Ldu
