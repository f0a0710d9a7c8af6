import Brainfuck.Machine.Basic
import Brainfuck.Store

/-!
# Commands in a row

Commands that are performed one after another, none of which fails, lead from one store to another.
What the commands of a loop do is best told of a tape that is seen from its head: the current cell,
the cells before it and the cells after it. Seen in this way a step to the right takes the next cell
from the one side and puts the current one on the other, and no position has to be counted.
-/

namespace Brainfuck

namespace Tape

/-- The tape with its head over `current`, the cells of `left` before it and those of `right` after
it. -/
def around (left : List UInt8) (current : UInt8) (right : List UInt8) : Tape where
  cells := (left ++ current :: right).toArray
  head := left.length

variable {left right : List UInt8} {c : UInt8}

@[simp] theorem head_around : (around left c right).head = left.length := rfl

@[simp] theorem size_around : (around left c right).size = left.length + right.length + 1 := by
  simp only [size, around, List.size_toArray, List.length_append, List.length_cons]
  omega

@[simp] theorem current_around : (around left c right).current = c := by
  simp [current, around]

@[simp] theorem write_around (value : UInt8) :
    (around left c right).write value = around left value right := by
  simp [write, around]

@[simp] theorem moveRight_around (next : UInt8) :
    (around left c (next :: right)).moveRight = around (left ++ [c]) next right := by
  simp [moveRight, around]

/-- A tape of zeros with its head over the first of them. -/
theorem blank_eq_around (n : Nat) : blank (n + 1) = around [] 0 (List.replicate n 0) := by
  rw [blank, around, List.nil_append, ← List.replicate_succ, List.toArray_replicate, List.length_nil]

end Tape

namespace Store

def withTape (s : Store) (t : Tape) : Store :=
  { s with tape := t }

@[simp] theorem tape_withTape (s : Store) (t : Tape) : (s.withTape t).tape = t := rfl

/-- A new store seen from its head. -/
theorem withTape_around_fresh (cells : CellCount) (input : String) :
    (fresh cells.value input).withTape (.around [] 0 (List.replicate (cells.value - 1) 0)) =
      fresh cells.value input := by
  have hvalue : cells.value - 1 + 1 = cells.value := Nat.sub_add_cancel cells.positive
  rw [← Tape.blank_eq_around, hvalue]
  rfl

/-- Some commands lead from one store to another, and none of them fails on the way. -/
inductive Performs : List Command → Store → Store → Prop where
  | nil {s : Store} : Performs [] s s
  | cons {c : Command} {cs : List Command} {s t : Store} (allowed : ∀ i, s.fault? c i = none)
      (others : Performs cs (s.perform c) t) : Performs (c :: cs) s t

theorem Performs.append {as bs : List Command} {s mid t : Store} (first : Performs as s mid)
    (second : Performs bs mid t) : Performs (as ++ bs) s t := by
  induction first with
  | nil => exact second
  | cons allowed _ ih => exact .cons allowed (ih second)

/-! ## Commands about one cell -/

section Tapes

variable {s : Store} {left right : List UInt8} {c : UInt8}

theorem Performs.increments (n : Nat) :
    Performs (List.replicate n .increment) (s.withTape (.around left c right))
      (s.withTape (.around left (c + UInt8.ofNat n) right)) := by
  induction n generalizing c with
  | zero =>
    have hzero : c + UInt8.ofNat 0 = c := UInt8.add_zero c
    rw [hzero]
    exact .nil
  | succ n ih =>
    have hnext : (s.withTape (.around left c right)).perform .increment =
        s.withTape (.around left (c + 1) right) := by
      simp [perform, withTape]
    have hsum : c + UInt8.ofNat (n + 1) = c + 1 + UInt8.ofNat n := by
      rw [UInt8.ofNat_add, UInt8.add_comm (UInt8.ofNat n), UInt8.add_assoc]
      rfl
    rw [List.replicate_succ, hsum]
    refine .cons (fun _ ↦ rfl) ?_
    rw [hnext]
    exact ih

/-- Counting up the first cell of a new store. -/
theorem Performs.increments_fresh (cells : CellCount) (input : String) (n : Nat) :
    Performs (List.replicate n .increment) (fresh cells.value input)
      ((fresh cells.value input).withTape
        (.around [] (UInt8.ofNat n) (List.replicate (cells.value - 1) 0))) := by
  have h : Performs (List.replicate n .increment)
      ((fresh cells.value input).withTape (.around [] 0 (List.replicate (cells.value - 1) 0))) _ :=
    increments n
  rwa [withTape_around_fresh, UInt8.zero_add] at h

theorem Performs.decrement :
    Performs [.decrement] (s.withTape (.around left c right))
      (s.withTape (.around left (c - 1) right)) := by
  have hnext : (s.withTape (.around left c right)).perform .decrement =
      s.withTape (.around left (c - 1) right) := by
    simp [perform, withTape]
  refine .cons (fun _ ↦ rfl) ?_
  rw [hnext]
  exact .nil

/-! ## Moves -/

theorem Performs.moveRight (next : UInt8) :
    Performs [.moveRight] (s.withTape (.around left c (next :: right)))
      (s.withTape (.around (left ++ [c]) next right)) := by
  have hnext : (s.withTape (.around left c (next :: right))).perform .moveRight =
      s.withTape (.around (left ++ [c]) next right) := by
    simp [perform, withTape]
  refine .cons (fun i ↦ ?_) ?_
  · simp [fault?_eq_none_iff]
  · rw [hnext]
    exact .nil

theorem Performs.movesLeft (cells : Array UInt8) (head n : Nat) :
    Performs (List.replicate n .moveLeft) (s.withTape ⟨cells, head + n⟩)
      (s.withTape ⟨cells, head⟩) := by
  induction n with
  | zero => exact .nil
  | succ n ih =>
    rw [List.replicate_succ]
    refine .cons (fun i ↦ ?_) ih
    simp [fault?_eq_none_iff]

/-- Over the last cell a move to the right fails. -/
theorem fault?_moveRight_last {cells : Array UInt8} {head : Nat} (h : cells.size = head + 1)
    (i : Instruction) :
    (s.withTape ⟨cells, head⟩).fault? .moveRight i = some (.pointerTooHigh (head + 1) i) :=
  fault?_eq_some_iff.mpr (.inl ⟨rfl, Nat.le_of_eq h, rfl⟩)

end Tapes

end Store

end Brainfuck
