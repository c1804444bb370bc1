import Ldu.Cfg.Split

/-!
# Rerouting the exits of a region

The second half of a flag dispatch: every edge to an exit goes through the dispatch blocks. The
rerouted graph carries in its flag the exit that was entered last. Next to the original graph
this is a history variable, `lastExit`, cleared whenever block `0` runs: the rerouted graph
simulates the original one with that history (`dispatch_matches`) as long as the first exit,
whose edges do not touch the flag, is entered only while the history says that the flag is
clear (`FirstExitClear`).
-/

namespace Ldu

open Ldu.Expr

/-! ### Rerouting -/

namespace Route

variable {rt : Route}

/-- Where an edge to `t` leads after the rerouting, with `es` the flag-setting blocks. -/
def Rerouted (rt : Route) (es : List Block) (t t' : ℕ) : Prop :=
  match exitIdx rt.exits t with
  | none => t' = t
  | some 0 => t' = rt.dispatch
  | some (k + 1) => ∃ j, t' = rt.base + j ∧ es[j]? = some (rt.setter (k + 1))

/-- Flag-setting blocks have been added. -/
def Extends (rt : Route) (es es' : List Block) : Prop :=
  ∃ ks : List ℕ, es' = es ++ ks.map rt.setter

theorem Extends.refl (es : List Block) : rt.Extends es es :=
  ⟨[], by simp⟩

theorem Extends.trans {es es' es'' : List Block} (h : rt.Extends es es')
    (h' : rt.Extends es' es'') : rt.Extends es es'' := by
  obtain ⟨ks, rfl⟩ := h
  obtain ⟨ks', rfl⟩ := h'
  exact ⟨ks ++ ks', by simp⟩

theorem Rerouted.mono {es es' : List Block} (h : rt.Extends es es') (t t' : ℕ)
    (ht : rt.Rerouted es t t') : rt.Rerouted es' t t' := by
  unfold Rerouted at ht ⊢
  split
  · next hidx => simpa [hidx] using ht
  · next hidx => simpa [hidx] using ht
  · next k hidx =>
    simp only [hidx] at ht
    obtain ⟨j, rfl, hj⟩ := ht
    obtain ⟨ks, rfl⟩ := h
    refine ⟨j, rfl, ?_⟩
    rw [List.getElem?_append_left (List.getElem?_eq_some_iff.1 hj).1]
    exact hj

theorem edge_spec (rt : Route) (es : List Block) (o : Option ℕ) :
    rt.Extends es (rt.edge es o).2 ∧
      Option.Rel (rt.Rerouted (rt.edge es o).2) o (rt.edge es o).1 := by
  cases o with
  | none => exact ⟨.refl _, .none⟩
  | some t =>
    unfold edge
    dsimp only
    split
    · next hidx => exact ⟨.refl _, .some (by simp [Rerouted, hidx])⟩
    · next hidx => exact ⟨.refl _, .some (by simp [Rerouted, hidx])⟩
    · next k hidx =>
      refine ⟨⟨[k + 1], rfl⟩, .some ?_⟩
      simp only [Rerouted, hidx]
      exact ⟨es.length, rfl, by simp⟩

theorem edges_spec (rt : Route) (es : List Block) (cs : List (Option ℕ)) :
    rt.Extends es (rt.edges es cs).2 ∧
      List.Forall₂ (Option.Rel (rt.Rerouted (rt.edges es cs).2)) cs (rt.edges es cs).1 := by
  induction cs generalizing es with
  | nil => exact ⟨.refl _, .nil⟩
  | cons c cs ih =>
    obtain ⟨h, hc⟩ := edge_spec rt es c
    obtain ⟨h', hcs⟩ := ih (rt.edge es c).2
    exact ⟨h.trans h', .cons (rel_mono (Rerouted.mono h') hc) hcs⟩

theorem block_spec (rt : Route) (es : List Block) (b : Block) :
    rt.Extends es (rt.block es b).2 ∧
      EdgesRel (rt.Rerouted (rt.block es b).2) b (rt.block es b).1 := by
  obtain ⟨h₁, ht⟩ := edge_spec rt es b.taken
  obtain ⟨h₂, hf⟩ := edge_spec rt (rt.edge es b.taken).2 b.fall
  obtain ⟨h₃, hd⟩ := edge_spec rt (rt.edge (rt.edge es b.taken).2 b.fall).2 b.defaultSucc
  obtain ⟨h₄, hcs⟩ := edges_spec rt
    (rt.edge (rt.edge (rt.edge es b.taken).2 b.fall).2 b.defaultSucc).2 b.caseSucc
  refine ⟨h₁.trans (h₂.trans (h₃.trans h₄)),
    ⟨rfl, rfl, rfl, rfl, rfl, rfl, rfl, rfl, rfl, ?_, ?_, ?_, hcs⟩⟩
  · exact rel_mono (Rerouted.mono (h₂.trans (h₃.trans h₄))) ht
  · exact rel_mono (Rerouted.mono (h₃.trans h₄)) hf
  · exact rel_mono (Rerouted.mono h₄) hd

theorem blocks_spec (rt : Route) (es bs : List Block) :
    rt.Extends es (rt.blocks es bs).2 ∧
      List.Forall₂ (EdgesRel (rt.Rerouted (rt.blocks es bs).2)) bs (rt.blocks es bs).1 := by
  induction bs generalizing es with
  | nil => exact ⟨.refl _, .nil⟩
  | cons b bs ih =>
    obtain ⟨h, hb⟩ := block_spec rt es b
    obtain ⟨h', hbs⟩ := ih (rt.block es b).2
    exact ⟨h.trans h', .cons (hb.mono (Rerouted.mono h')) hbs⟩

end Route

theorem exitIdx_eq_some {exits : List ℕ} {t k : ℕ} (h : exitIdx exits t = some k) :
    exits[k]? = some t ∧ k < exits.length := by
  unfold exitIdx at h
  split at h
  · next hmem =>
    obtain rfl := Option.some.inj h
    exact ⟨List.getElem?_idxOf hmem, List.idxOf_lt_length_of_mem hmem⟩
  · exact absurd h (by simp)

/-- The block that sets the flag to `k` and goes to the dispatch. -/
structure IsSetter (flag : String) (p k : ℕ) (e : Block) : Prop where
  stmts : e.stmts = [setFlagStmt flag k]
  ends : e.ends = .jmp
  isSwitch : e.isSwitch = false
  taken : e.taken = some p

/-- Where the edges to `t` lead in the rerouted graph `G`: to the dispatch for the first exit,
to a block that sets the flag for another, and to `t` itself otherwise. -/
def Redirected (flag : String) (sh : Shape) (p : ℕ) (G : List Block) (t t' : ℕ) : Prop :=
  match exitIdx sh.exits t with
  | none => t' = t
  | some 0 => t' = p
  | some (k + 1) => p ≤ t' ∧ ∃ e, G[t']? = some e ∧ IsSetter flag p (k + 1) e

/-- The flag is cleared at the start of block `0`. -/
def withInit (flag : String) (id : ℕ) (b : Block) : Block :=
  if id = 0 then { b with stmts := setFlagStmt flag 0 :: b.stmts } else b

theorem getElem?_initFlag (flag : String) (g : List Block) (id : ℕ) :
    (initFlag flag g)[id]? = g[id]?.map (withInit flag id) := by
  unfold initFlag
  rw [List.getElem?_modify]
  cases id with
  | zero => rfl
  | succ id =>
    have hid : withInit flag (id + 1) = fun b ↦ b := rfl
    simp [hid]

/-- The rerouting of a graph: its blocks and the dispatch blocks, and nothing but these and
blocks that set the flag. -/
structure Rerouting (flag : String) (sh : Shape) (g G : List Block) : Prop where
  block : ∀ id b, g[id]? = some b → ∃ b', G[id]? = some b' ∧
    EdgesRel (Redirected flag sh g.length G) (withInit flag id b) b'
  dispatcher : ∀ i d, (dispatchers g flag g.length sh)[i]? = some d → G[g.length + i]? = some d
  mem : ∀ e ∈ G, (∃ id b, g[id]? = some b ∧
      EdgesRel (Redirected flag sh g.length G) (withInit flag id b) e) ∨
    e ∈ dispatchers g flag g.length sh ∨
    (∃ k, e.exprs = (setFlagStmt flag k).exprs ∧ e.edges = [g.length])

theorem rerouting_dispatch (flag : String) (sh : Shape) (g : List Block) :
    Rerouting flag sh g (dispatch flag sh g) := by
  set ds := dispatchers g flag g.length sh with hds
  set rt : Route :=
    { exits := sh.exits
      flag := flag
      dispatch := g.length
      base := g.length + ds.length
      addr := fun k ↦ addrOf g (sh.exits[k]?.getD 0) } with hrt
  obtain ⟨⟨ks, hks⟩, hblocks⟩ := Route.blocks_spec rt [] (initFlag flag g)
  set bs := (rt.blocks [] (initFlag flag g)).1 with hbs
  set es := (rt.blocks [] (initFlag flag g)).2
  have hG : dispatch flag sh g = bs ++ ds ++ es := rfl
  have hlen : bs.length = g.length := by simpa [initFlag] using hblocks.length_eq.symm
  have hredirect : ∀ t t', rt.Rerouted es t t' →
      Redirected flag sh g.length (dispatch flag sh g) t t' := by
    intro t t' h
    unfold Route.Rerouted at h
    unfold Redirected
    simp only [hrt] at h
    split
    · next hidx => simpa [hidx] using h
    · next hidx => simpa [hidx] using h
    · next k hidx =>
      simp only [hidx] at h
      obtain ⟨j, rfl, hj⟩ := h
      have hset : IsSetter flag g.length (k + 1) (rt.setter (k + 1)) := ⟨rfl, rfl, rfl, rfl⟩
      refine ⟨by omega, rt.setter (k + 1), ?_, hset⟩
      rw [hG, List.getElem?_append_right (by simp [hlen]), ← hj]
      congr 1
      simp [hlen]
  refine ⟨?_, ?_, ?_⟩
  · intro id b hb
    have hrel := rel_getElem? hblocks id
    rw [getElem?_initFlag, hb, Option.map_some] at hrel
    rcases hb' : bs[id]? with _ | b'
    · rw [hb'] at hrel
      cases hrel
    · rw [hb'] at hrel
      cases hrel with
      | some hrel =>
        refine ⟨b', ?_, hrel.mono hredirect⟩
        rw [hG, List.append_assoc, List.getElem?_append_left (List.getElem?_eq_some_iff.1 hb').1]
        exact hb'
  · intro i d hd
    have hi : i < ds.length := (List.getElem?_eq_some_iff.1 hd).1
    rw [hG, List.append_assoc, List.getElem?_append_right (by omega), hlen,
      Nat.add_sub_cancel_left, List.getElem?_append_left hi]
    exact hd
  · intro e he
    rw [hG, List.append_assoc, List.mem_append, List.mem_append] at he
    rcases he with he | he | he
    · left
      obtain ⟨id, hid⟩ := List.mem_iff_getElem?.1 he
      have hrel := rel_getElem? hblocks id
      rw [getElem?_initFlag, hid] at hrel
      rcases hb : g[id]? with _ | b
      · rw [hb] at hrel
        cases hrel
      · rw [hb] at hrel
        cases hrel with
        | some hrel => exact ⟨id, b, hb, hrel.mono hredirect⟩
    · exact .inr (.inl he)
    · rw [hks, List.nil_append] at he
      obtain ⟨k, -, rfl⟩ := List.mem_map.1 he
      exact .inr (.inr ⟨k, rfl, rfl⟩)

/-! ### Running the dispatch -/

/-- The exits of a shape are usable: there are two to four of them, all live blocks. -/
structure Shape.Fits (sh : Shape) (merged : Finset ℕ) (g : List Block) : Prop where
  two_le : 2 ≤ sh.exits.length
  le_four : sh.exits.length ≤ 4
  live : ∀ t ∈ sh.exits, t < g.length ∧ t ∉ merged

section Dispatch

variable {σ E R : Type*} {I : Interp σ E R} {isFlag : String → Bool} {usedReturn : Bool}
  {merged : Finset ℕ} {flag : String} {sh : Shape} {g G : List Block}

theorem exec_setFlagStmt (hflag : isFlag flag = true) {k : ℕ} (hk : k ≤ 4)
    (y : σ × (String → ℕ)) :
    (I.withFlags isFlag).exec (setFlagStmt flag k) y = ([], .inl (setFlag flag k y)) := by
  have hset : flagSet? isFlag (setFlagStmt flag k) = some (flag, k) := by
    simp [setFlagStmt, flagSet?, mkVar, mkConst, hflag]
    omega
  simp [Interp.withFlags, hset, setFlag]

theorem runBlock_withInit (hflag : isFlag flag = true) (id : ℕ) (b : Block)
    (y : σ × (String → ℕ)) :
    runBlock (I.withFlags isFlag) usedReturn (withInit flag id b) y =
      runBlock (I.withFlags isFlag) usedReturn b (if id = 0 then setFlag flag 0 y else y) := by
  unfold withInit
  split
  · unfold runBlock
    simp only [Interp.execAll, exec_setFlagStmt hflag (Nat.zero_le 4), emit_nil]
    rfl
  · rfl

theorem IsSetter.runBlock {p k : ℕ} {e : Block} (he : IsSetter flag p k e)
    (hflag : isFlag flag = true) (hk : k ≤ 4) (y : σ × (String → ℕ)) :
    runBlock (I.withFlags isFlag) usedReturn e y = ([], .inl (p, setFlag flag k y)) := by
  unfold Ldu.runBlock
  simp [he.stmts, Interp.execAll, exec_setFlagStmt hflag hk, transfer, he.ends, he.isSwitch,
    he.taken, goTo]

/-- A dispatch block without statements goes where its test of the flag says. -/
theorem runBlock_test {d : Block} {c : Expr} {t : (String → ℕ) → Bool} (hstmts : d.stmts = [])
    (hends : d.ends = .jcc) (hswitch : d.isSwitch = false) (hcond : d.cond = some c)
    (ht : flagTest? isFlag c = some t) {y : σ × (String → ℕ)} {id : ℕ}
    (hid : (if t y.2 then d.taken else d.fall) = some id) :
    runBlock (I.withFlags isFlag) usedReturn d y = ([], .inl (id, y)) := by
  simp [runBlock, hstmts, Interp.execAll, transfer, hends, hswitch, Block.condExpr, hcond,
    Interp.withFlags, ht, hid, goTo]

theorem run_one (I : Interp σ E R) (usedReturn : Bool) {id id' : ℕ} {d : Block}
    {y y' : σ × (String → ℕ)} (hid : id ∉ merged)
    (hd : G[id]? = some d)
    (h : runBlock (I.withFlags isFlag) usedReturn d y = ([], .inl (id', y'))) :
    (graphMachine (I.withFlags isFlag) usedReturn merged G).run 1 (id, y) =
      ([], .inl (id', y')) := by
  rw [Machine.run_succ_of_step _ ((graphMachine_step _ _ hid hd y).trans h)]
  rfl

/-- From a rung of the ladder of tests, control reaches the exit the flag names. -/
theorem ladder_run (I : Interp σ E R) (usedReturn : Bool) {exits : List ℕ}
    (hG : Rerouting flag (.nWay exits) g G)
    (hflag : isFlag flag = true) (hmerged : ∀ m ∈ merged, m < g.length)
    (hle : exits.length ≤ 4) {y : σ × (String → ℕ)} {t : ℕ} (ht : exits[y.2 flag]? = some t)
    (n : ℕ) {j : ℕ} (hn : n + j + 2 = exits.length) (hj : j ≤ y.2 flag) :
    ∃ m, (graphMachine (I.withFlags isFlag) usedReturn merged G).run m (g.length + j, y) =
      ([], .inl (t, y)) := by
  have hlt : y.2 flag < exits.length := (List.getElem?_eq_some_iff.1 ht).1
  have hlive : g.length + j ∉ merged := fun h ↦ by have := hmerged _ h; omega
  have hrung := hG.dispatcher j _ (by
    rw [dispatchers, List.getElem?_map, List.getElem?_range (by omega), Option.map_some])
  have htest : flagTest? isFlag (mkBinary .eq (mkVar flag 4) (mkConst (BitVec.ofNat 64 j) 4) 4) =
      some fun φ ↦ φ flag == j := by
    have hmod : j % 18446744073709551616 = j := by omega
    simp [mkBinary, mkVar, mkConst, flagTest?, hflag, hmod]
  by_cases heq : y.2 flag = j
  · refine ⟨1, run_one I usedReturn hlive hrung (runBlock_test rfl rfl rfl rfl htest ?_)⟩
    simpa [heq] using ht
  · have hfall : ∀ id, (if j + 2 < exits.length then some (g.length + j + 1)
        else exits[exits.length - 1]?) = some id →
        (graphMachine (I.withFlags isFlag) usedReturn merged G).run 1 (g.length + j, y) =
          ([], .inl (id, y)) := fun id hid ↦
      run_one I usedReturn hlive hrung
        (runBlock_test rfl rfl rfl rfl htest (by simpa [heq] using hid))
    cases n with
    | zero =>
      have hlast : y.2 flag = exits.length - 1 := by omega
      exact ⟨1, hfall t (by rw [if_neg (by omega), ← hlast, ht])⟩
    | succ n =>
      obtain ⟨m, hm⟩ :=
        ladder_run I usedReturn hG hflag hmerged hle ht n (j := j + 1) (by omega) (by omega)
      refine ⟨1 + m, ?_⟩
      rw [Machine.run_add (hfall (g.length + (j + 1)) (by rw [if_pos (by omega)]; rfl)), hm]
      rfl

/-- The dispatch sends control to the exit the flag names. -/
theorem dispatch_run (I : Interp σ E R) (usedReturn : Bool) (hG : Rerouting flag sh g G)
    (hfits : sh.Fits merged g)
    (hflag : isFlag flag = true) (hmerged : ∀ m ∈ merged, m < g.length)
    {y : σ × (String → ℕ)} {t : ℕ} (ht : sh.exits[y.2 flag]? = some t) :
    ∃ m, (graphMachine (I.withFlags isFlag) usedReturn merged G).run m (g.length, y) =
      ([], .inl (t, y)) := by
  cases sh with
  | twoWay f s =>
    have hlive : g.length ∉ merged := fun h ↦ lt_irrefl _ (hmerged _ h)
    have htest : flagTest? isFlag (mkVar flag 4) = some fun φ ↦ φ flag != 0 := by
      simp [mkVar, flagTest?, hflag]
    refine ⟨1, run_one I usedReturn hlive (hG.dispatcher 0 _ rfl)
      (runBlock_test rfl rfl rfl rfl htest ?_)⟩
    rcases hk : y.2 flag with _ | _ | k
    · simpa [hk, Shape.exits] using ht
    · simpa [hk, Shape.exits] using ht
    · simp [hk, Shape.exits] at ht
  | nWay exits =>
    have h₂ := hfits.two_le
    exact ladder_run I usedReturn hG hflag hmerged hfits.le_four ht (exits.length - 2) (j := 0)
      (by simp only [Shape.exits] at h₂; omega) (Nat.zero_le _)

/-! ### The exit last taken -/

/-- What the flag holds when block `id` hands over control: block `0` clears it. -/
def cleared (id k : ℕ) : ℕ :=
  if id = 0 then 0 else k

/-- The history of a run that the flag records: the exit other than the first that was entered
last, or `0` when block `0` has run since. -/
def lastExit (exits : List ℕ) (p : ℕ × σ) (k : ℕ) (q : ℕ × σ) : ℕ :=
  match exitIdx exits q.1 with
  | some (j + 1) => j + 1
  | _ => cleared p.1 k

/-- The step from `p`, with history `k`, enters the first exit only if no other exit has been
entered since block `0` ran. -/
def EntersClear (M : Machine (ℕ × σ) E R) (exits : List ℕ) (pk : (ℕ × σ) × ℕ) : Prop :=
  match (M.step pk.1).2 with
  | .inl q => exitIdx exits q.1 = some 0 → cleared pk.1.1 pk.2 = 0
  | .inr _ => True

instance (M : Machine (ℕ × σ) E R) (exits : List ℕ) : DecidablePred (EntersClear M exits) :=
  fun pk ↦
    match h : (M.step pk.1).2 with
    | .inl q => decidable_of_iff (exitIdx exits q.1 = some 0 → cleared pk.1.1 pk.2 = 0)
        (by simp only [EntersClear, h])
    | .inr _ => isTrue (by simp only [EntersClear, h])

/-- Along the run from `p`, the first exit is entered only while no other exit has been entered
since block `0` ran. -/
def FirstExitClear (M : Machine (ℕ × σ) E R) (exits : List ℕ) (p : ℕ × σ) : Prop :=
  (M.withGhost (lastExit exits)).Always (EntersClear M exits) (p, 0)

/-- A state of the rerouted graph next to a state of the graph with its history: the flag holds
the history, except at block `0`, which is about to clear it. -/
def HistoryRel (flag : String) (n : ℕ) (p : (ℕ × σ × (String → ℕ)) × ℕ)
    (q : ℕ × σ × (String → ℕ)) : Prop :=
  q.1 = p.1.1 ∧ p.1.1 < n ∧ ∃ k, q.2 = setFlag flag k p.1.2 ∧ (p.1.1 ≠ 0 → k = p.2)

/-- One step of the graph with its history is matched by the rerouted graph, whose flag holds
the history. -/
theorem dispatch_matches (hG : Rerouting flag sh g G) (hfits : sh.Fits merged g)
    (hclosed : Closed merged g) (hflag : isFlag flag = true)
    (hfresh : ∀ b ∈ g, b.mentions flag = false) {id k k' : ℕ} {x : σ × (String → ℕ)}
    (hid : id < g.length) (hk : id ≠ 0 → k' = k)
    (hclear : EntersClear (graphMachine (I.withFlags isFlag) usedReturn merged g) sh.exits
      ((id, x), k)) :
    (graphMachine (I.withFlags isFlag) usedReturn merged G).Matches (HistoryRel flag g.length)
      (id, setFlag flag k' x)
      (((graphMachine (I.withFlags isFlag) usedReturn merged g).withGhost
        (lastExit sh.exits)).step ((id, x), k)) := by
  by_cases hlive : id ∈ merged
  · have hstep : (graphMachine (I.withFlags isFlag) usedReturn merged g).step (id, x) =
        ([], .inr none) := by
      simp [graphMachine, hlive]
    rw [Machine.withGhost_halt hstep]
    exact Machine.Matches.halt (by simp [graphMachine, hlive])
  obtain ⟨b, hb⟩ : ∃ b, g[id]? = some b := ⟨_, List.getElem?_eq_getElem hid⟩
  obtain ⟨b', hb', hrel⟩ := hG.block id b hb
  have hmem := List.mem_of_getElem? hb
  have hstep := graphMachine_step (I.withFlags isFlag) usedReturn hlive hb x
  have hstep' := graphMachine_step (I.withFlags isFlag) usedReturn hlive hb' (setFlag flag k' x)
  -- The rerouted block runs from the state whose flag is the history.
  have hrun := runBlock_edgesRel (I.withFlags isFlag) usedReturn hrel (setFlag flag k' x)
  have hstart : (if id = 0 then setFlag flag 0 (setFlag flag k' x) else setFlag flag k' x) =
      setFlag flag (cleared id k) x := by
    unfold cleared
    split
    · simp
    · next hne => rw [hk hne]
  rw [runBlock_withInit hflag, hstart, runBlock_setFlag (hfresh b hmem)] at hrun
  rcases hres : runBlock (I.withFlags isFlag) usedReturn b x with ⟨es, ⟨t, x₁⟩ | r⟩
  · rw [hres] at hstep hrun
    obtain ⟨t', ht', hredirect⟩ := hrun
    rw [ht'] at hstep'
    rw [Machine.withGhost_step hstep]
    have ht : t < g.length :=
      hclosed.edges_lt b hmem t (Block.mem_edges_of_targets (mem_targets_of_runBlock hres))
    have hmerged : ∀ m ∈ merged, m < g.length := hclosed.merged_lt
    unfold Redirected at hredirect
    rcases hidx : exitIdx sh.exits t with _ | _ | j
    · simp only [hidx] at hredirect
      subst hredirect
      exact Machine.Matches.one hstep'
        ⟨rfl, ht, cleared id k, rfl, fun _ ↦ by simp [lastExit, hidx]⟩
    · -- The first exit: the flag is clear.
      simp only [hidx] at hredirect
      subst hredirect
      have hzero : cleared id k = 0 := by
        simp only [EntersClear, hstep] at hclear
        exact hclear hidx
      rw [hzero] at hstep'
      obtain ⟨m, hm⟩ := dispatch_run I usedReturn hG hfits hflag hmerged
        (y := setFlag flag 0 x₁) (t := t) (by simpa using (exitIdx_eq_some hidx).1)
      exact Machine.Matches.step_run hstep' hm
        ⟨rfl, ht, 0, rfl, fun _ ↦ by simp [lastExit, hidx, hzero]⟩
    · -- Another exit: the block on the way sets the flag.
      simp only [hidx] at hredirect
      obtain ⟨hp, e, he, hset⟩ := hredirect
      have hj : j + 1 ≤ 4 := (exitIdx_eq_some hidx).2.le.trans hfits.le_four
      have hlive' : t' ∉ merged := fun h ↦ absurd (hmerged _ h) (by omega)
      have hone := run_one I usedReturn hlive' he
        (hset.runBlock hflag hj (setFlag flag (cleared id k) x₁))
      rw [setFlag_setFlag] at hone
      obtain ⟨m, hm⟩ := dispatch_run I usedReturn hG hfits hflag hmerged
        (y := setFlag flag (j + 1) x₁) (t := t) (by simpa using (exitIdx_eq_some hidx).1)
      have hsilent := Machine.run_add (n := m) hone
      rw [hm] at hsilent
      exact Machine.Matches.step_run hstep' hsilent
        ⟨rfl, ht, j + 1, rfl, fun _ ↦ by simp [lastExit, hidx]⟩
  · rw [hres] at hstep hrun
    rw [Machine.withGhost_halt hstep]
    exact Machine.Matches.halt (hstep'.trans hrun)

/-- A rerouting keeps the behaviour of the runs that enter the first exit only while the flag
is clear. -/
theorem dispatch_sameBehaviour (hfits : sh.Fits merged g) (hclosed : Closed merged g)
    (hflag : isFlag flag = true) (hfresh : ∀ b ∈ g, b.mentions flag = false)
    (x : σ × (String → ℕ))
    (hclear : FirstExitClear (graphMachine (I.withFlags isFlag) usedReturn merged g) sh.exits
      (0, x)) :
    (graphMachine (I.withFlags isFlag) usedReturn merged (dispatch flag sh g)).SameBehaviour (0, x)
      (graphMachine (I.withFlags isFlag) usedReturn merged g) (0, x) := by
  have hpos : 0 < g.length := by
    obtain ⟨t, ht⟩ := List.exists_mem_of_length_pos (Nat.zero_lt_two.trans_le hfits.two_le)
    exact Nat.zero_lt_of_lt (hfits.live t ht).1
  refine .trans (.symm ?_) (Machine.withGhost_sameBehaviour _ (lastExit sh.exits) (0, x) 0)
  refine Machine.Simulation.sameBehaviour_of_always (Q := HistoryRel flag g.length) ?_
    ⟨rfl, hpos, x.2 flag, by simp, fun h ↦ absurd rfl h⟩ hclear
  rintro ⟨⟨id, x⟩, k⟩ ⟨id', y⟩ ⟨hid', hid, k', hy, hk⟩ halways
  obtain ⟨rfl, rfl⟩ : id' = id ∧ y = setFlag flag k' x := ⟨hid', hy⟩
  exact dispatch_matches (rerouting_dispatch flag sh g) hfits hclosed hflag hfresh hid hk
    halways.now

end Dispatch

end Ldu
