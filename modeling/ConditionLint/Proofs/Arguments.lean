import ConditionLint.Options.Arguments
import Mathlib.Data.Finset.Sort
import Mathlib.Data.List.Rotate

/-!
# Which arguments are left, and in which order

Flags and their values are removed from the arguments by their positions, the last one first. Removing a position moves
the last argument that is left into the gap, so what stands behind the gap is rotated by one place. Nothing is lost by
that and nothing but flags and values is removed. But the arguments that are left come out of order, unless the
rotations of each group of arguments at the end add up to full turns.
-/

namespace ConditionLint.Options

/-- The flag that stands at a position. -/
def flagAt? (args : List String) (i : ℕ) : Option Flag := args[i]?.bind Flag.ofArgument?

/-- Whether the argument at a position is a flag, or the value of the flag before it. -/
def isConsumed (args : List String) (i : ℕ) : Bool :=
  (flagAt? args i).isSome || (decide (0 < i) && (flagAt? args (i - 1)).any Flag.takesValue)

/-- The arguments, each with whether it is consumed. -/
def marked (args : List String) : List (String × Bool) :=
  args.zipIdx.map fun (arg, i) => (arg, isConsumed args i)

/-- The entries that are not marked, in their order. -/
def unmarked (marks : List (String × Bool)) : List String := (marks.filter fun m => !m.2).map Prod.fst

/-- The arguments that are neither flags nor values of flags, in their order. -/
def kept (args : List String) : List String := unmarked (marked args)

/-- How many consumed entries have so many unmarked ones behind them. -/
def gaps (marks : List (String × Bool)) (n : ℕ) : ℕ :=
  marks.tails.countP fun rest => rest.head?.any Prod.snd && (unmarked rest).length == n

/-- The positions of the flags and of their values, as they are met from left to right. A value that is a flag itself is
met twice. -/
def metPositions (args : List String) : List ℕ :=
  (List.range args.length).flatMap fun i =>
    match flagAt? args i with
    | some flag => if flag.takesValue && decide (i + 1 < args.length) then [i, i + 1] else [i]
    | none => []

/-- Remove a position and move the last element into the gap. There must be such a position. -/
def swapRemove? {α : Type} (xs : List α) (i : ℕ) : Option (List α) :=
  if i < xs.length then xs.getLast?.map fun last => (xs.set i last).dropLast else none

/-! ## Marks -/

/-- A position is marked if a flag stands there, or before it a flag that takes a value. For the first position the
caller says so. -/
theorem getElem?_markConsumed (isValue : Bool) (args : List String) (i : ℕ) :
    (markConsumed isValue args)[i]? = args[i]?.map fun arg =>
      (arg, (flagAt? args i).isSome || if i = 0 then isValue else (flagAt? args (i - 1)).any Flag.takesValue) := by
  induction args generalizing isValue i with
  | nil => rfl
  | cons arg rest ih =>
    cases hflag : Flag.ofArgument? arg with
    | none =>
      rw [markConsumed, hflag]
      cases i with
      | zero => simp [flagAt?, hflag]
      | succ i => cases i <;> simp [ih, flagAt?, hflag]
    | some flag =>
      rw [markConsumed, hflag]
      cases i with
      | zero => simp [flagAt?, hflag]
      | succ i => cases i <;> simp [ih, flagAt?, hflag]

/-- Each argument is marked by its own position. -/
@[simp] theorem getElem?_marked (args : List String) (i : ℕ) :
    (marked args)[i]? = args[i]?.map fun arg => (arg, isConsumed args i) := by
  simp [marked, List.getElem?_zipIdx, Function.comp_def]

/-- The marks are made from left to right, each from the argument and the one before it. -/
theorem markConsumed_eq_marked (args : List String) : markConsumed false args = marked args := by
  refine List.ext_getElem? fun i => ?_
  rw [getElem?_markConsumed, getElem?_marked]
  cases i <;> simp [isConsumed]

/-! ## Rotations -/

/-- Moving the last entry to the front. -/
@[simp] theorem lastToFront_concat {α : Type} (xs : List α) (x : α) : lastToFront (xs ++ [x]) = x :: xs := by
  simp [lastToFront]

/-- Moving the last entry to the front is undone by a rotation. -/
theorem rotate_lastToFront {α : Type} (xs : List α) : (lastToFront xs).rotate 1 = xs := by
  rcases List.eq_nil_or_concat xs with rfl | ⟨ys, y, rfl⟩
  · rfl
  · simp

/-- Moving the last entry to the front takes one place off a rotation. -/
theorem lastToFront_eq_rotate_iff {α : Type} {xs ys : List α} {n : ℕ} :
    lastToFront xs = ys.rotate n ↔ xs = ys.rotate (n + 1) := by
  rw [← (List.rotate_injective 1).eq_iff, rotate_lastToFront, List.rotate_rotate]

/-- What is left are the unmarked entries, in some order. -/
theorem remaining_perm (marks : List (String × Bool)) : (remaining marks).Perm (unmarked marks) := by
  induction marks with
  | nil => exact .refl _
  | cons mark rest ih =>
    obtain ⟨arg, consumed⟩ := mark
    cases consumed with
    | false => simpa [remaining, unmarked] using ih
    | true =>
      have hrotated : (remaining rest).Perm (lastToFront (remaining rest)) := by
        simpa [rotate_lastToFront] using List.rotate_perm (lastToFront (remaining rest)) 1
      simpa [remaining, unmarked] using hrotated.symm.trans ih

/-! ## Full turns -/

section Turns

variable {arg : String} {rest : List (String × Bool)} {n c : ℕ}

/-- An entry that is kept is the first unmarked one. -/
@[simp] theorem unmarked_kept : unmarked ((arg, false) :: rest) = arg :: unmarked rest := rfl

/-- A consumed entry is not among the unmarked ones. -/
@[simp] theorem unmarked_consumed : unmarked ((arg, true) :: rest) = unmarked rest := rfl

/-- An entry that is kept is no gap. -/
@[simp] theorem gaps_kept : gaps ((arg, false) :: rest) n = gaps rest n := by
  simp [gaps]

/-- A consumed entry is a gap before all unmarked entries behind it. -/
theorem gaps_consumed :
    gaps ((arg, true) :: rest) n = gaps rest n + if n = (unmarked rest).length then 1 else 0 := by
  simp [gaps, List.countP_cons, beq_iff_eq, eq_comm (a := n)]

/-- No entry has more unmarked ones behind it than there are. -/
theorem gaps_eq_zero (h : (unmarked rest).length < n) : gaps rest n = 0 := by
  induction rest with
  | nil => simp [gaps]
  | cons mark rest ih =>
    obtain ⟨arg, consumed⟩ := mark
    cases consumed with
    | false =>
      rw [gaps_kept]
      exact ih (Nat.lt_of_succ_lt (by simpa using h))
    | true =>
      rw [unmarked_consumed] at h
      rw [gaps_consumed, ih h, if_neg (Nat.ne_of_gt h)]

/-- Each group of unmarked entries at the end is rotated by full turns, the whole of them by `c` places more. -/
def TurnsFully (marks : List (String × Bool)) (c : ℕ) : Prop :=
  ∀ n > 0, n ∣ gaps marks n + if n = (unmarked marks).length then c else 0

/-- Without further places, all turns are full when each number of gaps is a multiple. -/
theorem turnsFully_zero_iff {marks : List (String × Bool)} :
    TurnsFully marks 0 ↔ ∀ n > 0, n ∣ gaps marks n := by
  simp [TurnsFully]

/-- A consumed entry turns what stands behind it by one place. -/
theorem turnsFully_consumed : TurnsFully ((arg, true) :: rest) c ↔ TurnsFully rest (c + 1) := by
  refine forall₂_congr fun n _ => ?_
  rw [gaps_consumed, unmarked_consumed]
  split
  · rw [Nat.add_assoc, Nat.add_comm 1 c]
  · rfl

/-- An entry that is kept stays in front only if the whole turn is full, and it is not moved by the turns behind it.
-/
theorem turnsFully_kept :
    TurnsFully ((arg, false) :: rest) c ↔ (unmarked rest).length + 1 ∣ c ∧ TurnsFully rest 0 := by
  have hbeyond : gaps rest ((unmarked rest).length + 1) = 0 := gaps_eq_zero (Nat.lt_succ_self _)
  rw [turnsFully_zero_iff]
  constructor
  · intro h
    refine ⟨by simpa [hbeyond] using h _ (Nat.succ_pos (unmarked rest).length), fun n hn => ?_⟩
    by_cases hlength : n = (unmarked rest).length + 1
    · rw [hlength, hbeyond]
      exact Nat.dvd_zero _
    · simpa [hlength] using h n hn
  · rintro ⟨hc, h⟩ n hn
    rw [gaps_kept, unmarked_kept, List.length_cons]
    split
    · next hlength =>
      subst hlength
      rwa [hbeyond, Nat.zero_add]
    · exact h n hn

/-- A full turn changes nothing. -/
theorem rotate_eq_self_of_dvd {xs : List String} (h : xs.length ∣ c) : xs.rotate c = xs := by
  obtain ⟨k, rfl⟩ := h
  exact List.rotate_length_mul xs k

/-- If the first of distinct entries is still the first after a rotation, then it was a full turn. -/
theorem dvd_of_cons_eq_rotate {xs ys : List String} (hdistinct : (arg :: ys).Nodup)
    (h : arg :: xs = (arg :: ys).rotate c) : (arg :: ys).length ∣ c := by
  have hbound : c % (arg :: ys).length < (arg :: ys).length := Nat.mod_lt _ (by simp)
  have hfirst : (arg :: ys)[c % (arg :: ys).length]? = (arg :: ys)[0]? := by
    rw [← List.head?_rotate hbound, List.rotate_mod, ← h]
    rfl
  exact Nat.dvd_of_mod_eq_zero ((List.getElem?_inj hbound hdistinct).mp hfirst)

/-- What is left is in order up to a rotation when all turns are full, and for distinct arguments only then. -/
theorem remaining_eq_rotate (marks : List (String × Bool)) (c : ℕ) :
    (TurnsFully marks c → remaining marks = (unmarked marks).rotate c) ∧
      ((unmarked marks).Nodup → remaining marks = (unmarked marks).rotate c → TurnsFully marks c) := by
  induction marks generalizing c with
  | nil =>
    have hnone : TurnsFully [] c := fun n hn => by simp [gaps, unmarked, Nat.ne_of_gt hn]
    exact ⟨fun _ => (List.rotate_nil c).symm, fun _ _ => hnone⟩
  | cons mark rest ih =>
    obtain ⟨arg, consumed⟩ := mark
    cases consumed with
    | true =>
      rw [turnsFully_consumed, remaining, unmarked_consumed, lastToFront_eq_rotate_iff]
      exact ih (c + 1)
    | false =>
      rw [turnsFully_kept, remaining, unmarked_kept]
      obtain ⟨hordered, hturns⟩ := ih 0
      rw [List.rotate_zero] at hordered hturns
      refine ⟨fun ⟨hc, hrest⟩ => ?_, fun hdistinct h => ?_⟩
      · rw [hordered hrest, rotate_eq_self_of_dvd hc]
      · have hc := dvd_of_cons_eq_rotate hdistinct h
        rw [rotate_eq_self_of_dvd hc] at h
        exact ⟨hc, hturns hdistinct.of_cons (List.cons.inj h).2⟩

end Turns

/-! ## Positions -/

/-- The positions of the consumed entries, the last one first, if the first entry has position `k`. -/
def consumedFrom (k : ℕ) : List (String × Bool) → List ℕ
  | [] => []
  | (_, false) :: rest => consumedFrom (k + 1) rest
  | (_, true) :: rest => consumedFrom (k + 1) rest ++ [k]

/-- The positions are those of the marks, counted from `k`. -/
theorem mem_consumedFrom {k i : ℕ} {marks : List (String × Bool)} :
    i ∈ consumedFrom k marks ↔ ∃ j, i = k + j ∧ marks[j]?.any Prod.snd = true := by
  induction marks generalizing k with
  | nil => simp [consumedFrom]
  | cons mark rest ih =>
    obtain ⟨arg, consumed⟩ := mark
    have hcases : (∃ j, i = k + j ∧ ((arg, consumed) :: rest)[j]?.any Prod.snd = true) ↔
        i = k ∧ consumed = true ∨ ∃ j, i = k + 1 + j ∧ rest[j]?.any Prod.snd = true := by
      rw [← Nat.or_exists_add_one]
      simp [Nat.add_assoc, Nat.add_comm 1]
    rw [hcases, ← ih]
    cases consumed <;> simp [consumedFrom, or_comm]

/-- The positions are listed from the last one to the first. -/
theorem pairwise_consumedFrom (k : ℕ) (marks : List (String × Bool)) : (consumedFrom k marks).Pairwise (· > ·) := by
  induction marks generalizing k with
  | nil => exact .nil
  | cons mark rest ih =>
    obtain ⟨arg, consumed⟩ := mark
    cases consumed with
    | false => exact ih (k + 1)
    | true =>
      refine List.pairwise_append.mpr ⟨ih (k + 1), List.pairwise_singleton _ _, fun i hi j hj => ?_⟩
      obtain ⟨n, rfl, -⟩ := mem_consumedFrom.mp hi
      rw [List.mem_singleton.mp hj]
      omega

/-- Removing a position rotates what stands behind it, and nothing else. -/
theorem swapRemove?_append {α : Type} (before : List α) (x : α) (behind : List α) :
    swapRemove? (before ++ x :: behind) before.length = some (before ++ lastToFront behind) := by
  rcases List.eq_nil_or_concat behind with rfl | ⟨ys, y, rfl⟩
  · simp [swapRemove?, lastToFront]
  · have hlast : (x :: (ys ++ [y])).getLast? = some y := by rw [← List.cons_append, List.getLast?_concat]
    have hrest : (y :: (ys ++ [y])).dropLast = y :: ys := by rw [← List.cons_append, List.dropLast_concat]
    simp [swapRemove?, hlast, hrest]

/-- Removing the consumed positions, the last one first, leaves what is left, and every position exists. -/
theorem foldlM_consumedFrom (before : List String) (marks : List (String × Bool)) :
    (consumedFrom before.length marks).foldlM swapRemove? (before ++ marks.map Prod.fst) =
      some (before ++ remaining marks) := by
  induction marks generalizing before with
  | nil => rfl
  | cons mark rest ih =>
    obtain ⟨arg, consumed⟩ := mark
    have hrest := ih (before ++ [arg])
    simp only [List.length_append, List.length_singleton, List.append_assoc, List.singleton_append] at hrest
    cases consumed with
    | false => exact hrest
    | true =>
      rw [consumedFrom, List.foldlM_append, List.map_cons, hrest]
      simp [swapRemove?_append, remaining]

/-- The positions that are met are the consumed ones. -/
theorem mem_metPositions {args : List String} {i : ℕ} :
    i ∈ metPositions args ↔ i < args.length ∧ isConsumed args i = true := by
  simp only [metPositions, List.mem_flatMap, List.mem_range, isConsumed]
  constructor
  · rintro ⟨j, hj, hi⟩
    cases hflag : flagAt? args j with
    | none => simp [hflag] at hi
    | some flag =>
      simp only [hflag] at hi
      split at hi
      · next hvalue =>
        rw [Bool.and_eq_true, decide_eq_true_eq] at hvalue
        rcases List.mem_pair.mp hi with rfl | rfl
        · exact ⟨hj, by simp [hflag]⟩
        · exact ⟨hvalue.2, by simp [hflag, hvalue.1]⟩
      · obtain rfl := List.mem_singleton.mp hi
        exact ⟨hj, by simp [hflag]⟩
  · rintro ⟨hi, hconsumed⟩
    rcases Bool.or_eq_true_iff.mp hconsumed with hflag | hvalue
    · obtain ⟨flag, hflag⟩ := Option.isSome_iff_exists.mp hflag
      refine ⟨i, hi, ?_⟩
      simp only [hflag]
      split <;> simp
    · obtain ⟨hpos, hvalue⟩ := Bool.and_eq_true_iff.mp hvalue
      obtain ⟨flag, hflag, htakes⟩ := (Option.any_eq_true _ _).mp hvalue
      have hpos : i - 1 + 1 = i := Nat.sub_add_cancel (of_decide_eq_true hpos)
      exact ⟨i - 1, by omega, by simp [hflag, htakes, hpos, hi]⟩

/-- The consumed positions are those of the flags and of their values, each once and the last one first. -/
theorem sort_metPositions (args : List String) :
    (metPositions args).toFinset.sort (· ≥ ·) = consumedFrom 0 (marked args) := by
  have hsorted := pairwise_consumedFrom 0 (marked args)
  have hsame : (metPositions args).toFinset = (consumedFrom 0 (marked args)).toFinset := by
    ext i
    rw [List.mem_toFinset, List.mem_toFinset, mem_metPositions, mem_consumedFrom]
    by_cases hi : i < args.length <;> simp [hi]
  rw [hsame]
  exact (List.toFinset_sort (· ≥ ·) (hsorted.imp Nat.ne_of_gt)).mpr (hsorted.imp Nat.le_of_lt)

/-- All positions exist when they are removed, and exactly the arguments that are neither flags nor values are left.
They are left in their order if all turns are full, and if they are distinct only then. -/
theorem arguments_left (files : String → Option String) (args : List String) :
    ((metPositions args).toFinset.sort (· ≥ ·)).foldlM swapRemove? args = some (ofArguments files args).2 ∧
      (ofArguments files args).2.Perm (kept args) ∧
      ((∀ n > 0, n ∣ gaps (marked args) n) → (ofArguments files args).2 = kept args) ∧
      ((kept args).Nodup →
        ((ofArguments files args).2 = kept args ↔ ∀ n > 0, n ∣ gaps (marked args) n)) := by
  have hleft : (ofArguments files args).2 = remaining (marked args) := by
    rw [ofArguments, markConsumed_eq_marked]
  have hargs : (marked args).map Prod.fst = args := by simp [marked, Function.comp_def]
  have hremoved := foldlM_consumedFrom [] (marked args)
  obtain ⟨hordered, hturns⟩ := remaining_eq_rotate (marked args) 0
  rw [turnsFully_zero_iff, List.rotate_zero] at hordered hturns
  rw [hleft, sort_metPositions]
  refine ⟨?_, remaining_perm _, hordered, fun hdistinct => ⟨hturns hdistinct, hordered⟩⟩
  simpa [hargs] using hremoved

/-- One flag in front of two files exchanges them. A flag with its value in front of them does not, since two rotations
of two files are a full turn. -/
theorem arguments_left_twoFiles :
    (kept ["--inconclusive", "a.c", "b.c"]).Nodup ∧
      (ofArguments (fun _ => none) ["--inconclusive", "a.c", "b.c"]).2 ≠ kept ["--inconclusive", "a.c", "b.c"] ∧
      (kept ["--enable", "style", "a.c", "b.c"]).Nodup ∧
      (ofArguments (fun _ => none) ["--enable", "style", "a.c", "b.c"]).2 =
        kept ["--enable", "style", "a.c", "b.c"] := by
  have hdistinct : (kept ["--inconclusive", "a.c", "b.c"]).Nodup := by decide
  have hdistinct' : (kept ["--enable", "style", "a.c", "b.c"]).Nodup := by decide
  refine ⟨hdistinct, fun h => ?_, hdistinct', ?_⟩
  · have hturn := ((arguments_left (fun _ => none) _).2.2.2 hdistinct).mp h 2 (by decide)
    exact absurd hturn (by decide)
  · refine ((arguments_left (fun _ => none) _).2.2.2 hdistinct').mpr fun n hn => ?_
    by_cases hlarge : 2 < n
    · rw [gaps_eq_zero (show 2 < n from hlarge)]
      exact Nat.dvd_zero n
    · have : n = 1 ∨ n = 2 := by omega
      rcases this with rfl | rfl <;> decide

end ConditionLint.Options
