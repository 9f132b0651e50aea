import Mathlib.Data.List.Basic

/-!
# Reading codes

A reader takes a value off the front of a list of symbols. What it reads as a
value is the word for that value; words put one behind the other are read back
one by one, so a message written in such words has one reading only.
-/

namespace Code

universe u v w

variable {σ : Type u} {α : Type v} {β : Type w}

abbrev Reader (σ : Type u) (α : Type v) : Type (max u v) := List σ → Option (α × List σ)

/-- Wherever `word` comes first, `r` takes it off and reads it as `x`. -/
def Reads (r : Reader σ α) (word : List σ) (x : α) : Prop :=
  ∀ rest, r (word ++ rest) = some (x, rest)

/-- Whatever `r` reads, it takes off `n` symbols. -/
def Takes (r : Reader σ α) (n : Nat) : Prop :=
  ∀ l x rest, r l = some (x, rest) → ∃ word, word.length = n ∧ l = word ++ rest

namespace Reader

/-- One symbol, if it is one that stands for a value. -/
def symbol (value : σ → Option α) : Reader σ α
  | [] => none
  | s :: rest => (value s).map fun x => (x, rest)

def bind (r : Reader σ α) (f : α → Reader σ β) : Reader σ β := fun l =>
  (r l).bind fun (x, rest) => f x rest

def map (g : α → β) (r : Reader σ α) : Reader σ β := fun l =>
  (r l).map fun (x, rest) => (g x, rest)

/-- The same reader `n` times over. -/
def times (r : Reader σ α) : Nat → Reader σ (List α)
  | 0 => fun l => some ([], l)
  | n + 1 => r.bind fun x => (times r n).map (x :: ·)

/-- As many words as `fuel` and the symbols allow, and the symbols left. -/
def upTo (r : Reader σ α) : Nat → List σ → List α × List σ
  | 0, l => ([], l)
  | fuel + 1, l =>
    match r l with
    | none => ([], l)
    | some (x, rest) => (x :: (r.upTo fuel rest).1, (r.upTo fuel rest).2)

/-- All the words that can be read one behind the other, and the symbols left. -/
def all (r : Reader σ α) (l : List σ) : List α × List σ := r.upTo l.length l

end Reader

open Reader

section Words

variable {r : Reader σ α} {word word' : List σ} {x : α} {n m : Nat}

theorem reads_symbol {value : σ → Option α} {s : σ} (known : value s = some x) :
    Reads (symbol value) [s] x := by
  intro rest
  simp [symbol, known]

theorem Reads.bind {f : α → Reader σ β} {y : β} (first : Reads r word x)
    (second : Reads (f x) word' y) : Reads (r.bind f) (word ++ word') y := by
  intro rest
  rw [List.append_assoc, Reader.bind, first, Option.bind_some]
  exact second rest

theorem Reads.map (reads : Reads r word x) (g : α → β) : Reads (r.map g) word (g x) := by
  intro rest
  rw [Reader.map, reads]
  rfl

/-- Word by word: the words of a list of values are read as that list. -/
theorem Reads.times {word : β → List σ} {value : β → α}
    (reads : ∀ b, Reads r (word b) (value b)) (bs : List β) :
    Reads (r.times bs.length) (bs.flatMap word) (bs.map value) := by
  -- the reader is built along the list, and so is the word
  induction bs with
  | nil => exact fun rest => rfl
  | cons b bs ih => exact (reads b).bind (ih.map (value b :: ·))

theorem takes_symbol (value : σ → Option α) : Takes (symbol value) 1 := by
  intro l x rest read
  cases l with
  | nil => cases read
  | cons s l =>
    obtain ⟨y, -, same⟩ := Option.map_eq_some_iff.mp read
    cases same
    exact ⟨[s], rfl, rfl⟩

theorem Takes.bind {f : α → Reader σ β} (first : Takes r n) (second : ∀ x, Takes (f x) m) :
    Takes (r.bind f) (n + m) := by
  intro l y rest read
  obtain ⟨⟨x, middle⟩, read₁, read₂⟩ := Option.bind_eq_some_iff.mp read
  obtain ⟨word, length, rfl⟩ := first l x middle read₁
  obtain ⟨word', length', rfl⟩ := second x middle y rest read₂
  exact ⟨word ++ word', by rw [List.length_append, length, length'], by rw [List.append_assoc]⟩

theorem Takes.map (takes : Takes r n) (g : α → β) : Takes (r.map g) n := by
  intro l y rest read
  obtain ⟨⟨x, left⟩, read', same⟩ := Option.map_eq_some_iff.mp read
  cases same
  exact takes l _ _ read'

theorem Takes.times (takes : Takes r n) (k : Nat) : Takes (r.times k) (k * n) := by
  induction k with
  | zero =>
    intro l x rest read
    cases read
    exact ⟨[], by rw [Nat.zero_mul, List.length_nil], rfl⟩
  | succ k ih =>
    have sum : (k + 1) * n = n + k * n := by rw [Nat.succ_mul, Nat.add_comm]
    rw [sum]
    exact takes.bind fun x => ih.map (x :: ·)

/-- Fewer symbols than a word has are not read. -/
theorem Takes.none_of_short (takes : Takes r n) {l : List σ} (short : l.length < n) :
    r l = none := by
  cases read : r l with
  | none => rfl
  | some result =>
    obtain ⟨word, length, whole⟩ := takes l result.1 result.2 read
    rw [whole, List.length_append] at short
    omega

end Words

/-! ### Messages -/

section Messages

variable {r : Reader σ α} {word : β → List σ} {value : β → α}

theorem upTo_words (reads : ∀ b, Reads r (word b) (value b)) {left : List σ}
    (stops : r left = none) (bs : List β) {fuel : Nat} (enough : bs.length ≤ fuel) :
    r.upTo fuel (bs.flatMap word ++ left) = (bs.map value, left) := by
  induction bs generalizing fuel with
  | nil =>
    cases fuel with
    | zero => rfl
    | succ fuel => simp [upTo, stops]
  | cons b bs ih =>
    -- each word uses up one unit of fuel
    cases fuel with
    | zero => exact absurd enough (by simp)
    | succ fuel =>
      rw [List.flatMap_cons, List.append_assoc, upTo, reads b]
      dsimp only
      rw [ih (Nat.le_of_succ_le_succ enough), List.map_cons]

theorem length_le_flatMap (nonempty : ∀ b, word b ≠ []) (bs : List β) :
    bs.length ≤ (bs.flatMap word).length := by
  induction bs with
  | nil => exact Nat.le_refl 0
  | cons b bs ih =>
    have positive := List.length_pos_iff.mpr (nonempty b)
    rw [List.flatMap_cons, List.length_append, List.length_cons]
    omega

/-- A message is read back as its values, and what stands behind it is left. -/
theorem all_words (reads : ∀ b, Reads r (word b) (value b)) (nonempty : ∀ b, word b ≠ [])
    (bs : List β) {left : List σ} (stops : r left = none) :
    r.all (bs.flatMap word ++ left) = (bs.map value, left) := by
  -- a word has a symbol at least, so the symbols are fuel enough
  apply upTo_words reads stops
  have short := length_le_flatMap nonempty bs
  rw [List.length_append]
  omega

/-- Unique decoding: messages in the same symbols have the same values. -/
theorem map_eq_of_flatMap_eq (reads : ∀ b, Reads r (word b) (value b))
    (nonempty : ∀ b, word b ≠ []) (stops : r [] = none) {bs cs : List β}
    (same : bs.flatMap word = cs.flatMap word) : bs.map value = cs.map value := by
  have left := all_words reads nonempty bs stops
  have right := all_words reads nonempty cs stops
  rw [same, right] at left
  exact (congrArg Prod.fst left).symm

end Messages

end Code
