import Ldu.Shell.Project
import Mathlib.Logic.Equiv.List

/-!
# A project keeps what it is told

A project is a table of binaries, for each of them a map of comments and a set of marks (`Shelf`),
and closing it and opening it again does nothing (`answers_eq`): the answers to all requests are
those of the table, in every run from a new project in which it is not opened again after a write
that failed. Binaries are numbered in the order in which they were added, and no number is used
twice.
-/

namespace Ldu

namespace Project

/-! ### The table -/

/-- The binaries of a project, and their comments and marks. -/
structure Shelf where
  name : String
  next : ℕ
  binaries : List Listed
  comments : ℕ → SortedMap ℕ String
  marks : ℕ → Finset ℕ

namespace Shelf

/-- The project without binaries. -/
def new (name : String) : Shelf :=
  ⟨name, 1, [], fun _ ↦ .empty, fun _ ↦ ∅⟩

/-- The binary is on the shelf. -/
def Holds (a : Shelf) (id : ℕ) : Prop :=
  id ∈ a.binaries.map (·.id)

instance (a : Shelf) (id : ℕ) : Decidable (a.Holds id) :=
  inferInstanceAs (Decidable (id ∈ a.binaries.map (·.id)))

variable (fileName : String → String) (a : Shelf)

/-- The comments of a binary with the comment at an address set, or deleted if it is blank. -/
def comment (id rva : ℕ) (text : String) : Shelf :=
  let comments :=
    if (trimText text).isEmpty then (a.comments id).erase rva
    else (a.comments id).insert rva (trimText text)
  if a.Holds id then { a with comments := Function.update a.comments id comments } else a

/-- The marks of a binary with the mark at an address toggled. -/
def toggle (id rva : ℕ) : Shelf :=
  if a.Holds id then { a with marks := Function.update a.marks id (symmDiff (a.marks id) {rva}) }
  else a

/-- What an edit does, and its answer. -/
def edit (a : Shelf) : Edit → Answer × Shelf
  | .addBinary path format arch =>
    let list := a.binaries ++ [⟨a.next, fileName path, path, format, arch⟩]
    (.binaries list, { a with next := a.next + 1, binaries := list })
  | .removeBinary id =>
    let list := a.binaries.filter (·.id != id)
    (.binaries list, { a with
      binaries := list
      comments := Function.update a.comments id .empty
      marks := Function.update a.marks id ∅ })
  | .setComment id rva text => (.ok, a.comment id rva text)
  | .toggleMark id rva =>
    (.marked (decide (a.Holds id ∧ rva ∉ a.marks id)), a.toggle id rva)

/-- What a query is answered. -/
def answer (a : Shelf) : Query → Answer
  | .getProject => .project a.name a.binaries
  | .getComments id => .comments (a.comments id).entries
  | .getMarks id => .marks (a.marks id).sort

/-- One request. -/
def step (a : Shelf) : Action → Answer × Shelf
  | .edit e failed =>
    (if failed.isSome then .saveFailed else (a.edit fileName e).1, (a.edit fileName e).2)
  | .ask q => (a.answer q, a)
  | .reopen => (.none, a)

/-- The answers of a run. -/
def answers (a : Shelf) : List Action → List Answer
  | [] => []
  | x :: xs => (a.step fileName x).1 :: answers (a.step fileName x).2 xs

end Shelf

/-! ### Lists of marks -/

theorem dedup_of_lt {l : List ℕ} (h : l.Pairwise (· < ·)) : dedup l = l := by
  induction l with
  | nil => rfl
  | cons a l ih =>
    cases l with
    | nil => rfl
    | cons b l =>
      rw [List.pairwise_cons] at h
      rw [dedup, if_neg (h.1 b List.mem_cons_self).ne, ih h.2]

theorem sort_lt (s : Finset ℕ) : s.sort.Pairwise (· < ·) :=
  (s.sortedLT_sort).pairwise

theorem insertionSort_of_le {l : List ℕ} (h : l.Pairwise (· ≤ ·)) :
    l.insertionSort (· ≤ ·) = l :=
  (List.perm_insertionSort _ l).eq_of_pairwise' (List.pairwise_insertionSort _ l) h

/-- What is written of the marks is the marks. -/
theorem dedup_insertionSort_sort (s : Finset ℕ) :
    dedup (s.sort.insertionSort (· ≤ ·)) = s.sort := by
  rw [insertionSort_of_le ((sort_lt s).imp le_of_lt), dedup_of_lt (sort_lt s)]

theorem sort_eq_of_mem_iff {s : Finset ℕ} {l : List ℕ} (h : l.Pairwise (· ≤ ·)) (hnodup : l.Nodup)
    (hmem : ∀ x, x ∈ l ↔ x ∈ s) : l = s.sort := by
  refine List.Perm.eq_of_pairwise' h (s.pairwise_sort (· ≤ ·)) ?_
  refine (List.perm_ext_iff_of_nodup hnodup (s.sort_nodup (· ≤ ·))).2 fun x ↦ ?_
  rw [hmem, Finset.mem_sort]

/-- A mark is taken off. -/
theorem erase_sort {s : Finset ℕ} {r : ℕ} (h : r ∈ s) :
    s.sort.erase r = (symmDiff s {r}).sort := by
  have hnodup : s.sort.Nodup := s.sort_nodup (· ≤ ·)
  refine sort_eq_of_mem_iff ((s.pairwise_sort (· ≤ ·)).sublist List.erase_sublist)
    (hnodup.erase r) fun x ↦ ?_
  rw [hnodup.mem_erase_iff, Finset.mem_sort, Finset.mem_symmDiff, Finset.mem_singleton]
  constructor
  · exact fun hx ↦ .inl ⟨hx.2, hx.1⟩
  · rintro (hx | ⟨rfl, hx⟩)
    · exact ⟨hx.2, hx.1⟩
    · exact absurd h hx

/-- A mark is set. -/
theorem insertionSort_append_sort {s : Finset ℕ} {r : ℕ} (h : r ∉ s) :
    (s.sort ++ [r]).insertionSort (· ≤ ·) = (symmDiff s {r}).sort := by
  have hperm := List.perm_insertionSort (· ≤ ·) (s.sort ++ [r])
  refine sort_eq_of_mem_iff (List.pairwise_insertionSort _ _) ?_ fun x ↦ ?_
  · rw [hperm.nodup_iff, List.nodup_append']
    refine ⟨s.sort_nodup (· ≤ ·), List.nodup_singleton r, fun x hx hr ↦ ?_⟩
    rw [List.mem_singleton] at hr
    exact h (hr ▸ (Finset.mem_sort _).1 hx)
  · rw [hperm.mem_iff, List.mem_append, List.mem_singleton, Finset.mem_sort, Finset.mem_symmDiff,
      Finset.mem_singleton]
    constructor
    · rintro (hx | rfl)
      · exact .inl ⟨hx, fun heq ↦ h (heq ▸ hx)⟩
      · exact .inr ⟨rfl, h⟩
    · rintro (hx | ⟨rfl, -⟩)
      · exact .inl hx.1
      · exact .inr rfl

/-! ### Finding a binary -/

/-- The first binary with a number is the only one. -/
theorem modify_findIdx {l : List DsBinary} (h : (l.map (·.id)).Nodup) (id : ℕ)
    (f : DsBinary → DsBinary) :
    l.modify (l.findIdx (·.id == id)) f = l.map fun b ↦ if b.id = id then f b else b := by
  induction l with
  | nil => rfl
  | cons b l ih =>
    rw [List.map_cons, List.nodup_cons] at h
    rw [List.findIdx_cons, List.map_cons]
    by_cases hb : b.id = id
    · have hrest : l.map (fun b ↦ if b.id = id then f b else b) = l := by
        refine (List.map_congr_left fun c hc ↦ if_neg fun hcid ↦ ?_).trans (List.map_id l)
        exact h.1 (List.mem_map.2 ⟨c, hc, hcid.trans hb.symm⟩)
      rw [hrest, if_pos hb, beq_iff_eq.2 hb]
      rfl
    · rw [if_neg hb, beq_eq_false_iff_ne.2 hb, ← ih h.2]
      rfl

/-- The number of binaries an edit adds. -/
def Edit.adds : Edit → ℕ
  | .addBinary _ _ _ => 1
  | _ => 0

def Action.adds : Action → ℕ
  | .edit e _ => e.adds
  | _ => 0

/-- The number of binaries that are added in a run. -/
def adds : List Action → ℕ
  | [] => 0
  | x :: xs => x.adds + adds xs

/-- The project is what the table says; `left` binaries may still be added. -/
structure Refines (p : DsProj) (a : Shelf) (left : ℕ) : Prop where
  name : p.name = a.name
  named : (trimText p.name).isEmpty = false
  list : p.binariesJson = a.binaries
  next : p.nextId = a.next
  pos : 1 ≤ a.next
  room : a.next + left ≤ u64Max
  ids : (a.binaries.map (·.id)).Nodup
  below : ∀ x ∈ a.binaries, x.id < a.next
  comments : ∀ b ∈ p.binaries, b.comments = a.comments b.id
  marks : ∀ b ∈ p.binaries, b.marks = (a.marks b.id).sort
  gone : ∀ id, ¬ a.Holds id → a.comments id = .empty ∧ a.marks id = ∅

namespace Refines

variable {p : DsProj} {a : Shelf} {left id rva : ℕ} {f : DsBinary → DsBinary}

theorem map_id (h : Refines p a left) : p.binaries.map (·.id) = a.binaries.map (·.id) := by
  rw [← h.list, DsProj.binariesJson, List.map_map]
  rfl

theorem nodup (h : Refines p a left) : (p.binaries.map (·.id)).Nodup :=
  h.map_id ▸ h.ids

theorem holds_iff (h : Refines p a left) : a.Holds id ↔ ∃ b ∈ p.binaries, b.id = id := by
  rw [Shelf.Holds, ← h.map_id, List.mem_map]

theorem binary_eq_some (h : Refines p a left) (hid : a.Holds id) :
    ∃ b ∈ p.binaries, b.id = id ∧ p.binary id = some b := by
  obtain ⟨b, hb, rfl⟩ := h.holds_iff.1 hid
  refine ⟨b, hb, rfl, ?_⟩
  cases hfind : p.binary b.id with
  | none => simpa using List.find?_eq_none.1 hfind b hb
  | some c =>
    have hcid : c.id = b.id := by simpa using List.find?_some hfind
    rw [List.inj_on_of_nodup_map h.nodup (List.mem_of_find?_eq_some hfind) hb hcid]

theorem binary_eq_none (h : Refines p a left) (hid : ¬ a.Holds id) : p.binary id = none := by
  refine List.find?_eq_none.2 fun b hb hbid ↦ hid (h.holds_iff.2 ⟨b, hb, ?_⟩)
  simpa using hbid

theorem modify_eq (h : Refines p a left) (id : ℕ) (f : DsBinary → DsBinary) :
    p.modifyBinary id f =
      { p with binaries := p.binaries.map fun b ↦ if b.id = id then f b else b } := by
  rw [DsProj.modifyBinary, modify_findIdx h.nodup]

/-- A binary that is not there is not changed. -/
theorem modify_of_not_holds (h : Refines p a left) (hid : ¬ a.Holds id) :
    p.modifyBinary id f = p := by
  have hself : p.binaries.map (fun b ↦ if b.id = id then f b else b) = p.binaries :=
    (List.map_congr_left fun b hb ↦ if_neg fun hbid ↦ hid (h.holds_iff.2 ⟨b, hb, hbid⟩)).trans
      (List.map_id _)
  rw [h.modify_eq, hself]

/-- The annotations of one binary are changed. -/
theorem modify (h : Refines p a left) (hid : a.Holds id) {c : SortedMap ℕ String} {m : Finset ℕ}
    (hf : ∀ b ∈ p.binaries, b.id = id →
      (f b).toListed = b.toListed ∧ (f b).comments = c ∧ (f b).marks = m.sort) :
    Refines (p.modifyBinary id f)
      { a with comments := Function.update a.comments id c
               marks := Function.update a.marks id m } left := by
  have hlist : (p.modifyBinary id f).binariesJson = p.binariesJson := by
    rw [h.modify_eq, DsProj.binariesJson, DsProj.binariesJson, List.map_map]
    refine List.map_congr_left fun b hb ↦ ?_
    rw [Function.comp_apply]
    split
    · next hbid => exact (hf b hb hbid).1
    · rfl
  have hmem : ∀ b' ∈ (p.modifyBinary id f).binaries,
      ∃ b ∈ p.binaries, b'.id = b.id ∧ b' = if b.id = id then f b else b := by
    intro b' hb'
    rw [h.modify_eq] at hb'
    obtain ⟨b, hb, rfl⟩ := List.mem_map.1 hb'
    refine ⟨b, hb, ?_, rfl⟩
    split
    · next hbid => rw [(hf b hb hbid).1]
    · rfl
  refine ⟨h.name, h.named, hlist.trans h.list, h.next, h.pos, h.room, h.ids, h.below,
    fun b' hb' ↦ ?_, fun b' hb' ↦ ?_, fun id' hid' ↦ ?_⟩
  · obtain ⟨b, hb, hbid, rfl⟩ := hmem b' hb'
    rw [hbid]
    dsimp only
    by_cases hb' : b.id = id
    · rw [if_pos hb', hb', Function.update_self, (hf b hb hb').2.1]
    · rw [if_neg hb', Function.update_of_ne hb', h.comments b hb]
  · obtain ⟨b, hb, hbid, rfl⟩ := hmem b' hb'
    rw [hbid]
    dsimp only
    by_cases hb' : b.id = id
    · rw [if_pos hb', hb', Function.update_self, (hf b hb hb').2.2]
    · rw [if_neg hb', Function.update_of_ne hb', h.marks b hb]
  · have hne : id' ≠ id := by
      rintro rfl
      exact hid' hid
    simp only [Function.update_of_ne hne]
    exact h.gone id' hid'

/-! ### Requests -/

variable {fileName : String → String}

variable (fileName) in
theorem addBinary (h : Refines p a (left + 1)) (path format arch : String) :
    Refines (p.addBinary fileName path format arch).2
      (a.edit fileName (.addBinary path format arch)).2 left := by
  have hid : max p.nextId 1 = a.next := by
    rw [h.next]
    exact max_eq_left h.pos
  have hroom := h.room
  have hfresh : a.next ∉ a.binaries.map (·.id) := by
    intro hmem
    obtain ⟨x, hx, heq⟩ := List.mem_map.1 hmem
    exact absurd (h.below x hx) (by omega)
  unfold DsProj.addBinary
  dsimp only
  rw [hid, min_eq_left (by omega)]
  refine ⟨h.name, h.named, ?_, rfl, Nat.le_add_left 1 _, ?_, ?_, ?_, ?_, ?_, ?_⟩
  · rw [DsProj.binariesJson, List.map_append, ← DsProj.binariesJson, h.list]
    rfl
  · simp only [Shelf.edit]
    omega
  · simp only [Shelf.edit, List.map_append, List.map_cons, List.map_nil]
    rw [List.nodup_append']
    refine ⟨h.ids, List.nodup_singleton _, fun x hx hx' ↦ ?_⟩
    rw [List.mem_singleton] at hx'
    exact hfresh (hx' ▸ hx)
  · intro x hx
    simp only [Shelf.edit, List.mem_append, List.mem_singleton] at hx ⊢
    rcases hx with hx | rfl
    · exact (h.below x hx).trans (Nat.lt_succ_self _)
    · exact Nat.lt_succ_self _
  · intro b hb
    rcases List.mem_append.1 hb with hb | hb
    · exact h.comments b hb
    · rw [List.mem_singleton.1 hb]
      exact (h.gone _ hfresh).1.symm
  · intro b hb
    rcases List.mem_append.1 hb with hb | hb
    · exact h.marks b hb
    · rw [List.mem_singleton.1 hb]
      exact ((congrArg (fun s : Finset ℕ ↦ s.sort) (h.gone _ hfresh).2).trans
        (Finset.sort_empty _)).symm
  · intro id hid
    refine h.gone id fun hold ↦ hid ?_
    simp only [Shelf.Holds, Shelf.edit, List.map_append, List.mem_append]
    exact .inl hold

variable (fileName) in
theorem removeBinary (h : Refines p a left) (id : ℕ) :
    Refines (p.removeBinary id) (a.edit fileName (.removeBinary id)).2 left := by
  have hsub : (a.binaries.filter (·.id != id)).Sublist a.binaries := List.filter_sublist
  refine ⟨h.name, h.named, ?_, h.next, h.pos, h.room, h.ids.sublist (hsub.map _),
    fun x hx ↦ h.below x (hsub.subset hx), fun b hb ↦ ?_, fun b hb ↦ ?_, fun id' hid' ↦ ?_⟩
  · simp only [DsProj.binariesJson, DsProj.removeBinary, Shelf.edit, ← h.list, List.filter_map]
    rfl
  · obtain ⟨hb, hne⟩ := List.mem_filter.1 hb
    rw [h.comments b hb]
    exact (Function.update_of_ne (by simpa using hne) _ _).symm
  · obtain ⟨hb, hne⟩ := List.mem_filter.1 hb
    have hupdate : Function.update a.marks id ∅ b.id = a.marks b.id :=
      Function.update_of_ne (by simpa using hne) _ _
    rw [h.marks b hb, ← hupdate]
    rfl
  · by_cases hne : id' = id
    · subst hne
      simp only [Shelf.edit, Function.update_self, and_self]
    · simp only [Shelf.edit, Function.update_of_ne hne]
      refine h.gone id' fun hold ↦ hid' ?_
      obtain ⟨x, hx, rfl⟩ := List.mem_map.1 hold
      exact List.mem_map.2 ⟨x, List.mem_filter.2 ⟨hx, by simpa using hne⟩, rfl⟩

theorem setComment (h : Refines p a left) (id rva : ℕ) (text : String) :
    Refines (p.setComment id rva text) (a.comment id rva text) left := by
  unfold DsProj.setComment Shelf.comment
  dsimp only
  by_cases hid : a.Holds id
  · rw [if_pos hid]
    have hmod := h.modify hid (c := if (trimText text).isEmpty then (a.comments id).erase rva
      else (a.comments id).insert rva (trimText text)) (m := a.marks id)
      (f := fun b ↦ { b with comments := if (trimText text).isEmpty then b.comments.erase rva
        else b.comments.insert rva (trimText text) }) fun b hb hbid ↦ ?_
    · rwa [Function.update_eq_self] at hmod
    · subst hbid
      exact ⟨rfl, by rw [h.comments b hb], h.marks b hb⟩
  · rwa [h.modify_of_not_holds hid, if_neg hid]

theorem toggleMark (h : Refines p a left) (id rva : ℕ) :
    (p.toggleMark id rva).1 = decide (a.Holds id ∧ rva ∉ a.marks id) ∧
      Refines (p.toggleMark id rva).2 (a.toggle id rva) left := by
  unfold DsProj.toggleMark Shelf.toggle
  by_cases hid : a.Holds id
  · obtain ⟨b, hb, rfl, hfind⟩ := h.binary_eq_some hid
    have hmem : rva ∈ b.marks ↔ rva ∈ a.marks b.id := by
      rw [h.marks b hb, Finset.mem_sort]
    rw [hfind, if_pos hid]
    dsimp only
    split
    · next hmark =>
      refine ⟨by simp [hid, hmem.1 hmark], ?_⟩
      have hmod := h.modify hid (c := a.comments b.id) (m := symmDiff (a.marks b.id) {rva})
        (f := fun b ↦ { b with marks := b.marks.erase rva }) fun c hc hcid ↦ ?_
      · rwa [Function.update_eq_self] at hmod
      · refine ⟨rfl, hcid ▸ h.comments c hc, ?_⟩
        rw [← hcid] at hmem ⊢
        dsimp only
        rw [h.marks c hc]
        exact erase_sort (hmem.1 hmark)
    · next hmark =>
      refine ⟨by simp [hid, mt hmem.2 hmark], ?_⟩
      have hmod := h.modify hid (c := a.comments b.id) (m := symmDiff (a.marks b.id) {rva})
        (f := fun b ↦ { b with marks := (b.marks ++ [rva]).insertionSort (· ≤ ·) })
        fun c hc hcid ↦ ?_
      · rwa [Function.update_eq_self] at hmod
      · refine ⟨rfl, hcid ▸ h.comments c hc, ?_⟩
        rw [← hcid] at hmem ⊢
        dsimp only
        rw [h.marks c hc]
        exact insertionSort_append_sort (mt hmem.2 hmark)
  · rw [h.binary_eq_none hid, if_neg hid]
    exact ⟨by simp [hid], h⟩

variable (fileName) in
theorem edit {e : Edit} (h : Refines p a (left + e.adds)) :
    (e.apply fileName p).1 = (a.edit fileName e).1 ∧
      Refines (e.apply fileName p).2 (a.edit fileName e).2 left := by
  cases e with
  | addBinary path format arch =>
    have hadd := h.addBinary fileName path format arch
    exact ⟨congrArg Answer.binaries hadd.list, hadd⟩
  | removeBinary id =>
    have hremove := h.removeBinary fileName id
    exact ⟨congrArg Answer.binaries hremove.list, hremove⟩
  | setComment id rva text => exact ⟨rfl, h.setComment id rva text⟩
  | toggleMark id rva =>
    have htoggle := h.toggleMark id rva
    exact ⟨congrArg Answer.marked htoggle.1, htoggle.2⟩

theorem query (h : Refines p a left) (q : Query) : q.answer p = a.answer q := by
  cases q with
  | getProject => exact congrArg₂ Answer.project h.name h.list
  | getComments id =>
    refine congrArg Answer.comments ?_
    unfold DsProj.commentsJson
    by_cases hid : a.Holds id
    · obtain ⟨b, hb, rfl, hfind⟩ := h.binary_eq_some hid
      rw [hfind, Option.map_some, Option.getD_some, h.comments b hb]
    · rw [h.binary_eq_none hid, (h.gone id hid).1]
      rfl
  | getMarks id =>
    refine congrArg Answer.marks ?_
    unfold DsProj.marksVec
    by_cases hid : a.Holds id
    · obtain ⟨b, hb, rfl, hfind⟩ := h.binary_eq_some hid
      rw [hfind, Option.map_some, Option.getD_some, h.marks b hb, dedup_insertionSort_sort]
    · rw [h.binary_eq_none hid, (h.gone id hid).2, Finset.sort_empty]
      rfl

/-- Writing changes nothing. -/
theorem saved_eq (h : Refines p a left) : p.saved = p := by
  have hself : p.binaries.map (fun b ↦
      { b with marks := dedup (b.marks.insertionSort (· ≤ ·)) }) = p.binaries := by
    refine (List.map_congr_left fun b hb ↦ ?_).trans (List.map_id _)
    rw [h.marks b hb, dedup_insertionSort_sort, ← h.marks b hb]
    rfl
  rw [DsProj.saved, hself]

/-- What was written is read back. -/
theorem load_saved (h : Refines p a left) (fmt : ProjFormat) (stem : String) :
    load fmt stem (fmt.encode p.saved) = some p := by
  have hnext : p.nextId ≠ 0 := by
    have := h.pos
    rw [h.next]
    omega
  unfold load
  dsimp only
  rw [h.saved_eq, fmt.encode_not_blank, fmt.decode_encode, if_neg Bool.false_ne_true,
    Option.map_some, if_neg hnext, h.named, if_neg Bool.false_ne_true]

end Refines

/-! ### Runs -/

/-- The file has what was written last. -/
def Action.written (ok : Bool) : Action → Bool
  | .edit _ failed => failed.isNone
  | _ => ok

/-- The project is not opened again while its file is not the last one written. -/
def Readable : Bool → List Action → Prop
  | _, [] => True
  | ok, .reopen :: xs => ok = true ∧ Readable ok xs
  | ok, x :: xs => Readable (x.written ok) xs

section Runs

variable {fmt : ProjFormat} {fileName : String → String} {stem : String} {s : State} {a : Shelf}
  {left : ℕ} {ok : Bool} {x : Action}

variable (fileName stem) in
theorem refines_step (h : Refines s.proj a (left + x.adds))
    (htext : ok = true → s.text = fmt.encode s.proj.saved) (hread : x = .reopen → ok = true) :
    (step fmt fileName stem s x).1 = (a.step fileName x).1 ∧
      Refines (step fmt fileName stem s x).2.proj (a.step fileName x).2 left ∧
      (x.written ok = true → (step fmt fileName stem s x).2.text =
        fmt.encode (step fmt fileName stem s x).2.proj.saved) := by
  cases x with
  | edit e failed =>
    obtain ⟨hanswer, hrefines⟩ := h.edit fileName
    cases failed with
    | none => exact ⟨hanswer, hrefines, fun _ ↦ rfl⟩
    | some text => exact ⟨rfl, hrefines, fun h ↦ by cases h⟩
  | ask q => exact ⟨h.query q, h, htext⟩
  | reopen =>
    have hload := h.load_saved fmt stem
    rw [← htext (hread rfl)] at hload
    unfold step
    dsimp only
    rw [hload, Option.getD_some]
    exact ⟨rfl, h, htext⟩

theorem answers_of_refines {run : List Action} (h : Refines s.proj a (adds run))
    (htext : ok = true → s.text = fmt.encode s.proj.saved) (hread : Readable ok run) :
    answers fmt fileName stem s run = a.answers fileName run := by
  induction run generalizing s a ok with
  | nil => rfl
  | cons x run ih =>
    rw [adds, Nat.add_comm] at h
    obtain ⟨hanswer, hrefines, htext'⟩ := refines_step fileName stem h htext
      fun hx ↦ by subst hx; exact hread.1
    rw [answers, Shelf.answers, hanswer, ih hrefines htext' ?_]
    cases x with
    | reopen => exact hread.2
    | _ => exact hread

end Runs

/-- **A project answers like the table of its binaries**, with comments and marks, and closing it
and opening it again does nothing, in every run from a new project with fewer than `2 ^ 64 - 1`
additions in which it is not opened again after a write that failed. -/
theorem answers_eq (fmt : ProjFormat) (fileName : String → String) (stem name : String)
    (run : List Action) (hname : (trimText name).isEmpty = false) (hread : Readable true run)
    (hadds : adds run < u64Max) :
    answers fmt fileName stem (create fmt name) run = (Shelf.new name).answers fileName run := by
  refine answers_of_refines ?_ (fun _ ↦ rfl) hread
  refine ⟨rfl, hname, rfl, rfl, le_rfl, ?_, .nil, ?_, ?_, ?_, fun _ _ ↦ ⟨rfl, rfl⟩⟩
  · simp only [Shelf.new]
    omega
  all_goals exact fun _ h ↦ absurd h List.not_mem_nil

/-! ### A file format -/

/-- A document as lists of numbers and of texts, which are lists of numbers. -/
abbrev Flat :=
  List ℕ × ℕ × List ((ℕ × List ℕ × List ℕ × List ℕ × List ℕ) × List (ℕ × List ℕ) × List ℕ)

def textCodes (s : String) : List ℕ :=
  s.toList.map Char.toNat

def ofCodes (l : List ℕ) : String :=
  String.ofList (l.map Char.ofNat)

theorem ofCodes_textCodes (s : String) : ofCodes (textCodes s) = s := by
  have hself : s.toList.map (fun c ↦ Char.ofNat c.toNat) = s.toList :=
    (List.map_congr_left fun c _ ↦ Char.ofNat_toNat c).trans (List.map_id _)
  rw [ofCodes, textCodes, List.map_map]
  exact (congrArg String.ofList hself).trans String.ofList_toList

def flatten (p : DsProj) : Flat :=
  (textCodes p.name, p.nextId, p.binaries.map fun b ↦
    ((b.id, textCodes b.name, textCodes b.path, textCodes b.format, textCodes b.arch),
      b.comments.entries.map fun e ↦ (e.1, textCodes e.2), b.marks))

def unflatten (f : Flat) : DsProj :=
  ⟨ofCodes f.1, f.2.1, f.2.2.map fun b ↦
    ⟨⟨b.1.1, ofCodes b.1.2.1, ofCodes b.1.2.2.1, ofCodes b.1.2.2.2.1, ofCodes b.1.2.2.2.2⟩,
      b.2.1.foldl (fun m e ↦ m.insert e.1 (ofCodes e.2)) .empty, b.2.2⟩⟩

theorem unflatten_flatten (p : DsProj) : unflatten (flatten p) = p := by
  have hcomments : ∀ m : SortedMap ℕ String,
      (m.entries.map fun e ↦ (e.1, textCodes e.2)).foldl
        (fun m e ↦ m.insert e.1 (ofCodes e.2)) SortedMap.empty = m := by
    intro m
    rw [List.foldl_map]
    simp only [ofCodes_textCodes]
    exact m.foldl_insert_entries
  unfold unflatten flatten
  simp only [ofCodes_textCodes, List.map_map, Function.comp_def, hcomments]
  congr
  exact List.map_id _

/-- Documents as numbers in decimal. -/
def numberFormat : ProjFormat where
  encode p := String.ofList (Nat.toDigits 10 (Encodable.encode (flatten p)))
  decode t := (Encodable.decode (Nat.ofDigitChars 10 t.toList 0)).map unflatten
  decode_encode p := by
    rw [String.toList_ofList, Nat.ofDigitChars_ten_toDigits, Encodable.encodek, Option.map_some,
      unflatten_flatten]
  encode_not_blank p := by
    rw [trimText, String.toList_ofList, Str.trim_toDigits, Bool.eq_false_iff]
    intro h
    rw [String.isEmpty_iff, String.ofList_eq_empty_iff] at h
    exact Nat.toDigits_ne_nil h

/-- A binary is added, an address is marked and commented, and the project is opened again. -/
def session : List Action :=
  [.edit (.addBinary "a.exe" "PE32+" "x64") none, .edit (.toggleMark 1 4096) none,
    .edit (.setComment 1 4096 " loop start ") none, .reopen, .ask (.getMarks 1),
    .edit (.toggleMark 1 4096) none, .reopen, .ask (.getComments 1), .ask (.getMarks 1)]

example : answers numberFormat id "p" (create numberFormat "p") (session.take 3 ++
    [.edit (.toggleMark 1 8192) none, .edit (.toggleMark 1 4096) none, .ask (.getComments 1),
      .ask (.getMarks 1)]) =
    [.binaries [⟨1, "a.exe", "a.exe", "PE32+", "x64"⟩], .marked true, .ok, .marked true,
      .marked false, .comments [(4096, "loop start")], .marks [8192]] := by
  decide

theorem session_answers :
    answers numberFormat id "p" (create numberFormat "p") session =
      (Shelf.new "p").answers id session :=
  answers_eq numberFormat id "p" "p" session (by decide) ⟨rfl, rfl, trivial⟩ (by decide)

end Project

end Ldu
