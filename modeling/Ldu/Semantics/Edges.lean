import Ldu.Semantics.Flow

/-!
# Blocks that differ in their edges

Passes that reroute control change the successors of a block and nothing else. `EdgesRel Q`
relates a block to its rerouted version when corresponding successors are related by `Q`; such
blocks run alike, up to where they go (`runBlock_edgesRel`).
-/

namespace Ldu

/-- Every successor the block records, whether its terminator uses it or not. -/
def Block.edges (b : Block) : List ℕ :=
  b.taken.toList ++ b.fall.toList ++ b.defaultSucc.toList ++ b.caseSucc.reduceOption

theorem Block.mem_edges_of_targets {b : Block} {t : ℕ} (h : t ∈ b.targets) : t ∈ b.edges := by
  unfold targets at h
  unfold edges
  split at h <;> simp only [List.mem_append] at h ⊢ <;> tauto

/-- `b'` is `b` with its successors changed along `Q`. -/
structure EdgesRel (Q : ℕ → ℕ → Prop) (b b' : Block) : Prop where
  stmts : b'.stmts = b.stmts
  ends : b'.ends = b.ends
  isSwitch : b'.isSwitch = b.isSwitch
  cond : b'.cond = b.cond
  switchVar : b'.switchVar = b.switchVar
  retValue : b'.retValue = b.retValue
  retRaw : b'.retRaw = b.retRaw
  hasRetValue : b'.hasRetValue = b.hasRetValue
  tailCall : b'.tailCall = b.tailCall
  taken : Option.Rel Q b.taken b'.taken
  fall : Option.Rel Q b.fall b'.fall
  defaultSucc : Option.Rel Q b.defaultSucc b'.defaultSucc
  caseSucc : List.Forall₂ (Option.Rel Q) b.caseSucc b'.caseSucc

section Options

variable {α β : Type*} {Q : α → β → Prop}

theorem rel_mono {Q' : α → β → Prop} (h : ∀ x y, Q x y → Q' x y) {o : Option α} {o' : Option β}
    (ho : Option.Rel Q o o') : Option.Rel Q' o o' := by
  cases ho with
  | none => exact .none
  | some hxy => exact .some (h _ _ hxy)

theorem rel_trans {γ : Type*} {Q' : β → γ → Prop} {o : Option α} {o' : Option β} {o'' : Option γ}
    (h : Option.Rel Q o o') (h' : Option.Rel Q' o' o'') :
    Option.Rel (Relation.Comp Q Q') o o'' := by
  cases h with
  | none =>
    cases h' with
    | none => exact .none
  | some hQ =>
    cases h' with
    | some hQ' => exact .some ⟨_, hQ, hQ'⟩

theorem forall₂_trans {γ : Type*} {Q' : β → γ → Prop} {Q'' : α → γ → Prop}
    (hQ : ∀ a b c, Q a b → Q' b c → Q'' a c) {l : List α} {l' : List β} {l'' : List γ}
    (h : List.Forall₂ Q l l') (h' : List.Forall₂ Q' l' l'') : List.Forall₂ Q'' l l'' := by
  induction h generalizing l'' with
  | nil =>
    cases h' with
    | nil => exact .nil
  | cons hab _ ih =>
    cases h' with
    | cons hbc h' => exact .cons (hQ _ _ _ hab hbc) (ih h')

theorem rel_join {o : Option (Option α)} {o' : Option (Option β)}
    (h : Option.Rel (Option.Rel Q) o o') : Option.Rel Q o.join o'.join := by
  cases h with
  | none => exact .none
  | some h => exact h

theorem rel_orElse {a b : Option α} {a' b' : Option β} (h : Option.Rel Q a a')
    (h' : Option.Rel Q b b') : Option.Rel Q (a <|> b) (a' <|> b') := by
  cases h with
  | none => exact h'
  | some h => exact .some h

theorem rel_getElem? {l : List α} {l' : List β} (h : List.Forall₂ Q l l') (i : ℕ) :
    Option.Rel Q l[i]? l'[i]? := by
  induction h generalizing i with
  | nil => exact .none
  | cons hab _ ih =>
    cases i with
    | zero => exact .some hab
    | succ i => exact ih i

theorem mem_toList_of_rel {o : Option α} {o' : Option β} (h : Option.Rel Q o o') {y : β}
    (hy : y ∈ o'.toList) : ∃ x ∈ o.toList, Q x y := by
  cases h with
  | none => exact absurd hy (by simp)
  | some h =>
    obtain rfl := by simpa using hy
    exact ⟨_, by simp, h⟩

theorem mem_reduceOption_of_rel {l : List (Option α)} {l' : List (Option β)}
    (h : List.Forall₂ (Option.Rel Q) l l') {y : β} (hy : y ∈ l'.reduceOption) :
    ∃ x ∈ l.reduceOption, Q x y := by
  rw [List.reduceOption_mem_iff] at hy
  induction h with
  | nil => exact absurd hy (by simp)
  | cons hab _ ih =>
    rcases List.mem_cons.1 hy with rfl | hy
    · cases hab with
      | some hab => exact ⟨_, by simp [List.reduceOption_mem_iff], hab⟩
    · obtain ⟨x, hx, hxy⟩ := ih hy
      exact ⟨x, List.reduceOption_mem_iff.2
        (List.mem_cons_of_mem _ (List.reduceOption_mem_iff.1 hx)), hxy⟩

end Options

namespace EdgesRel

variable {Q : ℕ → ℕ → Prop} {b b' : Block}

theorem mono {Q' : ℕ → ℕ → Prop} (hQ : ∀ t t', Q t t' → Q' t t') (h : EdgesRel Q b b') :
    EdgesRel Q' b b' :=
  ⟨h.stmts, h.ends, h.isSwitch, h.cond, h.switchVar, h.retValue, h.retRaw,
    h.hasRetValue, h.tailCall,
    rel_mono hQ h.taken, rel_mono hQ h.fall, rel_mono hQ h.defaultSucc,
    h.caseSucc.imp fun _ _ ↦ rel_mono hQ⟩

theorem trans {Q' : ℕ → ℕ → Prop} {b'' : Block} (h : EdgesRel Q b b') (h' : EdgesRel Q' b' b'') :
    EdgesRel (Relation.Comp Q Q') b b'' :=
  ⟨h'.stmts.trans h.stmts, h'.ends.trans h.ends, h'.isSwitch.trans h.isSwitch, h'.cond.trans h.cond,
    h'.switchVar.trans h.switchVar, h'.retValue.trans h.retValue, h'.retRaw.trans h.retRaw,
    h'.hasRetValue.trans h.hasRetValue, h'.tailCall.trans h.tailCall,
    rel_trans h.taken h'.taken, rel_trans h.fall h'.fall, rel_trans h.defaultSucc h'.defaultSucc,
    forall₂_trans (fun _ _ _ ↦ rel_trans) h.caseSucc h'.caseSucc⟩

theorem exprs (h : EdgesRel Q b b') : b'.exprs = b.exprs := by
  simp [Block.exprs, Block.termExprs, h.stmts, h.cond, h.switchVar, h.retValue, h.retRaw,
    h.tailCall]

theorem retText (h : EdgesRel Q b b') (usedReturn : Bool) :
    b'.retText usedReturn = b.retText usedReturn := by
  simp [Block.retText, h.tailCall, h.hasRetValue, h.retValue]

theorem caseTarget (h : EdgesRel Q b b') (k : ℤ) :
    Option.Rel Q (b.caseTarget k) (b'.caseTarget k) := by
  refine rel_orElse ?_ h.defaultSucc
  split
  · exact rel_join (rel_getElem? h.caseSucc _)
  · exact .none

theorem mem_edges (h : EdgesRel Q b b') {t' : ℕ} (ht : t' ∈ b'.edges) :
    ∃ t ∈ b.edges, Q t t' := by
  simp only [Block.edges, List.mem_append] at ht ⊢
  rcases ht with ((ht | ht) | ht) | ht
  · obtain ⟨t, hmem, hQ⟩ := mem_toList_of_rel h.taken ht
    exact ⟨t, .inl (.inl (.inl hmem)), hQ⟩
  · obtain ⟨t, hmem, hQ⟩ := mem_toList_of_rel h.fall ht
    exact ⟨t, .inl (.inl (.inr hmem)), hQ⟩
  · obtain ⟨t, hmem, hQ⟩ := mem_toList_of_rel h.defaultSucc ht
    exact ⟨t, .inl (.inr hmem), hQ⟩
  · obtain ⟨t, hmem, hQ⟩ := mem_reduceOption_of_rel h.caseSucc ht
    exact ⟨t, .inr hmem, hQ⟩

end EdgesRel

theorem edgesRel_mapEdges {Q : ℕ → ℕ → Prop} {f : ℕ → ℕ} {b : Block}
    (h : ∀ t ∈ b.edges, Q t (f t)) : EdgesRel Q b (b.mapEdges f) := by
  have hopt : ∀ o : Option ℕ, (∀ t ∈ o.toList, t ∈ b.edges) → Option.Rel Q o (o.map f) := by
    intro o ho
    cases o with
    | none => exact .none
    | some t => exact .some (h t (ho t (by simp)))
  have hcases : List.Forall₂ (Option.Rel Q) b.caseSucc (b.caseSucc.map (·.map f)) := by
    rw [List.forall₂_map_right_iff, List.forall₂_same]
    refine fun o ho ↦ hopt o fun t ht ↦ ?_
    obtain rfl := Option.mem_toList.1 ht
    exact List.mem_append_right _ (List.reduceOption_mem_iff.2 ho)
  exact ⟨rfl, rfl, rfl, rfl, rfl, rfl, rfl, rfl, rfl,
    hopt _ fun t ht ↦ by simp [Block.edges, Option.mem_toList.1 ht],
    hopt _ fun t ht ↦ by simp [Block.edges, Option.mem_toList.1 ht],
    hopt _ fun t ht ↦ by simp [Block.edges, Option.mem_toList.1 ht], hcases⟩

theorem edgesRel_refl {Q : ℕ → ℕ → Prop} {b : Block} (h : ∀ t ∈ b.edges, Q t t) :
    EdgesRel Q b b := by
  have hid : b.mapEdges id = b := by simp [Block.mapEdges]
  have hrel := edgesRel_mapEdges (f := id) h
  rwa [hid] at hrel

theorem mem_edges_mapEdges {f : ℕ → ℕ} {b : Block} {t : ℕ} (h : t ∈ (b.mapEdges f).edges) :
    ∃ s ∈ b.edges, t = f s := by
  simp only [Block.edges, Block.mapEdges, List.mem_append, Option.mem_toList,
    List.reduceOption_mem_iff, Option.map_eq_some_iff, List.mem_map] at h ⊢
  rcases h with ((⟨s, hs, rfl⟩ | ⟨s, hs, rfl⟩) | ⟨s, hs, rfl⟩) | ⟨o, ho, s, rfl, rfl⟩
  all_goals exact ⟨s, by simp_all, rfl⟩

section Run

variable {σ E R : Type*} {I : Interp σ E R} {usedReturn : Bool} {Q : ℕ → ℕ → Prop}
  {b b' : Block}

/-- The same events and the same state or result, at related blocks. -/
def NextRel (Q : ℕ → ℕ → Prop) : List E × Next σ R → List E × Next σ R → Prop
  | (es, .inl (t, s)), y => ∃ t', y = (es, .inl (t', s)) ∧ Q t t'
  | (es, .inr r), y => y = (es, .inr r)

theorem NextRel.emit {x y : List E × Next σ R} (h : NextRel Q x y) (es : List E) :
    NextRel Q (emit es x) (emit es y) := by
  rcases x with ⟨es', ⟨t, s⟩ | r⟩
  · obtain ⟨t', rfl, hQ⟩ := h
    exact ⟨t', rfl, hQ⟩
  · obtain rfl := h
    rfl

theorem leaveBy_edgesRel (h : EdgesRel Q b b') (s : σ) :
    NextRel Q (leaveBy I usedReturn b s) (leaveBy I usedReturn b' s) := by
  simp [leaveBy, NextRel, h.retText]

theorem goTo_edgesRel (h : EdgesRel Q b b') {t t' : Option ℕ} (ht : Option.Rel Q t t') (s : σ) :
    NextRel Q (goTo I usedReturn b t s) (goTo I usedReturn b' t' s) := by
  cases ht with
  | none => exact leaveBy_edgesRel h s
  | some hQ => exact ⟨_, rfl, hQ⟩

theorem transfer_edgesRel (h : EdgesRel Q b b') (s : σ) :
    NextRel Q (transfer I usedReturn b s) (transfer I usedReturn b' s) := by
  have hcond : b'.condExpr = b.condExpr := by rw [Block.condExpr, Block.condExpr, h.cond]
  have hsel : b'.selExpr = b.selExpr := by rw [Block.selExpr, Block.selExpr, h.switchVar]
  unfold transfer
  rw [h.ends, h.isSwitch, hcond, hsel]
  split
  · exact leaveBy_edgesRel h s
  · exact (goTo_edgesRel h (h.caseTarget _) _).emit _
  · refine (goTo_edgesRel h ?_ _).emit _
    split
    · exact h.taken
    · exact h.fall
  · exact goTo_edgesRel h h.taken s
  · exact goTo_edgesRel h h.fall s

/-- Blocks that differ in their edges run alike, up to where they go. -/
theorem runBlock_edgesRel (I : Interp σ E R) (usedReturn : Bool) (h : EdgesRel Q b b')
    (s : σ) :
    NextRel Q (runBlock I usedReturn b s) (runBlock I usedReturn b' s) := by
  unfold runBlock
  rw [h.stmts]
  rcases I.execAll b.stmts s with ⟨es, s' | r⟩
  · exact (transfer_edgesRel h s').emit es
  · rfl

end Run

end Ldu
