import IrCtl.Semantics.CString

/-!
# Request ids

`get_request_id` and what it leaves in its caller's buffer.
-/

namespace IrCtl

open CString

def requestIdMark : CStr := lit "request_id="

def isTerminator (c : UInt8) : Bool := c = 13 || c = 10 || c = 0

/-- The copy loop, with `fuel` bounding its turns: the bytes stored. -/
def copyLoop (data : List UInt8) (dlen : Nat) : Nat → Nat → List UInt8
  | 0, _ => []
  | fuel + 1, pos =>
    if !isTerminator (byteAt data pos) && pos < dlen then
      byteAt data pos :: copyLoop data dlen fuel (pos + 1)
    else []

/-- `get_request_id`: the buffer after the call. `data` is `NULL` or the memory
from the topic on. -/
def getRequestId (data : Option (List UInt8)) (dlen : Nat) (requestId : List UInt8) : List UInt8 :=
  match data with
  | none => requestId
  | some data =>
    if dlen ≤ 1 then requestId
    else
      match strstr requestIdMark (ofMem data) with
      | none => [0] ++ requestId.drop 1
      | some pos =>
        -- the mark has eleven characters
        let pos := pos + 12
        let id := copyLoop data dlen dlen pos
        id ++ [0] ++ requestId.drop (id.length + 1)

/-- The id behind the mark; without a mark, none. -/
def foundId (data : List UInt8) (dlen : Nat) : CStr :=
  match strstr requestIdMark (ofMem data) with
  | none => []
  | some pos => copyLoop data dlen dlen (pos + 12)

theorem not_nul_mem_copyLoop (data : List UInt8) (dlen fuel pos : Nat) :
    (0 : UInt8) ∉ copyLoop data dlen fuel pos := by
  induction fuel generalizing pos with
  | zero => exact List.not_mem_nil
  | succ fuel ih =>
    rw [copyLoop]
    split
    · next copied =>
      have plain : byteAt data pos ≠ 0 := by
        intro nul
        simp [nul, isTerminator] at copied
      rw [List.mem_cons, not_or]
      exact ⟨plain.symm, ih (pos + 1)⟩
    · exact List.not_mem_nil

/-- The string in the buffer is the id found, whatever was there before. -/
theorem ofMem_getRequestId {dlen : Nat} (long : 1 < dlen) (data requestId : List UInt8) :
    ofMem (getRequestId (some data) dlen requestId) = foundId data dlen := by
  have short : ¬ dlen ≤ 1 := by omega
  simp only [getRequestId, foundId, short, if_false]
  cases strstr requestIdMark (ofMem data) with
  | none => rfl
  | some pos =>
    dsimp only
    rw [List.append_assoc, ofMem_append, if_neg (not_nul_mem_copyLoop data dlen dlen (pos + 12))]
    simp [ofMem]

/-! ### The id a topic names -/

/-- The mark first occurs at `p`, before any NUL. -/
def MarkAt (topic : List UInt8) (p : Nat) : Prop :=
  requestIdMark <+: (ofMem topic).drop p ∧ ∀ q < p, ¬ requestIdMark <+: (ofMem topic).drop q

/-- The bytes from `p` to the next terminator or the end of the topic. -/
def idFrom (topic : List UInt8) (p : Nat) : List UInt8 :=
  (topic.drop p).takeWhile fun c => !isTerminator c

theorem requestIdMark_ne_nil : requestIdMark ≠ [] := by decide

theorem requestIdMark_length : requestIdMark.length = 11 := by decide

/-- An occurrence that fits into a prefix of a string is one in the prefix. -/
private theorem occurs_of_occurs_take {short long mark : CStr} (pre : short <+: long) {q : Nat}
    (occurs : mark <+: long.drop q) (fits : q + mark.length ≤ short.length) :
    mark <+: short.drop q := by
  obtain ⟨tail, rfl⟩ := pre
  rw [List.drop_append_of_le_length (by omega)] at occurs
  exact List.prefix_of_prefix_length_le occurs (List.prefix_append _ _)
    (by rw [List.length_drop]; omega)

/-- The search finds a mark of the topic, whatever follows the topic. -/
theorem strstr_of_markAt {topic : List UInt8} {p : Nat} (found : MarkAt topic p)
    (rest : List UInt8) : strstr requestIdMark (ofMem (topic ++ rest)) = some p := by
  rw [strstr_eq_some_iff requestIdMark_ne_nil]
  have pre := ofMem_prefix topic rest
  have fits : p + 11 ≤ (ofMem topic).length := by
    have bound := found.1.length_le
    rw [requestIdMark_length, List.length_drop] at bound
    omega
  constructor
  · obtain ⟨tail, whole⟩ := pre
    rw [← whole, List.drop_append_of_le_length (by omega)]
    exact found.1.trans (List.prefix_append _ _)
  · intro q early occurs
    exact found.2 q early
      (occurs_of_occurs_take pre occurs (by rw [requestIdMark_length]; omega))

/-- Without a mark in the topic, whatever the search finds ends behind it. -/
theorem strstr_behind {topic : List UInt8} (unmarked : ∀ p, ¬ MarkAt topic p)
    {rest : List UInt8} {q : Nat} (found : strstr requestIdMark (ofMem (topic ++ rest)) = some q) :
    topic.length < q + 11 := by
  obtain ⟨occurs, first⟩ := (strstr_eq_some_iff requestIdMark_ne_nil).mp found
  have pre := ofMem_prefix topic rest
  have outside : (ofMem topic).length < q + 11 := by
    by_contra inside
    refine unmarked q ⟨occurs_of_occurs_take pre occurs (by rw [requestIdMark_length]; omega), ?_⟩
    intro r early earlier
    obtain ⟨tail, whole⟩ := pre
    refine first r early ?_
    rw [← whole, List.drop_append_of_le_length (by omega)]
    exact earlier.trans (List.prefix_append _ _)
  by_cases nul : (0 : UInt8) ∈ topic
  · rw [ofMem_append, if_pos nul] at occurs
    have bound := occurs.length_le
    rw [requestIdMark_length, List.length_drop] at bound
    omega
  · rw [ofMem_eq_self nul] at outside
    exact outside

theorem copyLoop_eq (topic rest : List UInt8) (fuel pos : Nat) (enough : topic.length ≤ fuel + pos) :
    copyLoop (topic ++ rest) topic.length fuel pos = idFrom topic pos := by
  induction fuel generalizing pos with
  | zero =>
    rw [idFrom, List.drop_eq_nil_of_le (by omega)]
    rfl
  | succ fuel ih =>
    rw [copyLoop, ih (pos + 1) (by omega)]
    by_cases inside : pos < topic.length
    · have byte : byteAt (topic ++ rest) pos = topic[pos] := by
        simp [byteAt, List.getD_eq_getElem?_getD, List.getElem?_append_left inside,
          List.getElem?_eq_getElem inside]
      rw [byte, idFrom, idFrom, List.drop_eq_getElem_cons inside, List.takeWhile_cons]
      by_cases ends : isTerminator topic[pos] <;> simp only [ends, inside] <;> rfl
    · have behind : idFrom topic pos = [] := by
        rw [idFrom, List.drop_eq_nil_of_le (by omega)]
        rfl
      simp only [inside, decide_false, Bool.and_false, Bool.false_eq_true, if_false, behind]

/-- The id extracted from a topic, whatever follows it: it is read from one byte
behind the end of the mark. -/
theorem foundId_marked {topic : List UInt8} {p : Nat} (found : MarkAt topic p)
    (rest : List UInt8) : foundId (topic ++ rest) topic.length = idFrom topic (p + 12) := by
  simp only [foundId, strstr_of_markAt found rest]
  rw [copyLoop_eq topic rest topic.length (p + 12) (by omega)]

theorem foundId_behind {topic rest : List UInt8}
    (behind : ∀ q, strstr requestIdMark (ofMem (topic ++ rest)) = some q → topic.length < q + 11) :
    foundId (topic ++ rest) topic.length = [] := by
  rw [foundId]
  cases found : strstr requestIdMark (ofMem (topic ++ rest)) with
  | none => rfl
  | some q =>
    have outside := behind q found
    dsimp only
    rw [copyLoop_eq topic rest topic.length (q + 12) (by omega), idFrom,
      List.drop_eq_nil_of_le (by omega)]
    rfl

theorem foundId_unmarked {topic : List UInt8} (unmarked : ∀ p, ¬ MarkAt topic p)
    (rest : List UInt8) : foundId (topic ++ rest) topic.length = [] :=
  foundId_behind fun _ found => strstr_behind unmarked found

theorem markAt_unique {topic : List UInt8} {p q : Nat} (first : MarkAt topic p)
    (second : MarkAt topic q) : p = q := by
  rcases Nat.lt_trichotomy p q with less | equal | greater
  · exact absurd first.1 (second.2 p less)
  · exact equal
  · exact absurd second.1 (first.2 q greater)

/-- An id and the id read from one byte later: the first byte is lost. -/
theorem idFrom_succ {topic : List UInt8} {p : Nat} {c : UInt8} {cs : List UInt8}
    (id : idFrom topic p = c :: cs) : idFrom topic (p + 1) = cs := by
  unfold idFrom at *
  cases rest : topic.drop p with
  | nil => simp [rest] at id
  | cons d ds =>
    have next : topic.drop (p + 1) = ds := by rw [← List.tail_drop, rest, List.tail_cons]
    rw [rest, List.takeWhile_cons] at id
    split at id
    · rw [next]
      exact (List.cons.inj id).2
    · cases id

theorem idFrom_eq_nil_iff (topic : List UInt8) (p : Nat) :
    idFrom topic p = [] ↔ ∀ c, topic[p]? = some c → isTerminator c := by
  unfold idFrom
  rw [← List.head?_drop]
  cases topic.drop p with
  | nil => simp
  | cons c cs =>
    by_cases ends : isTerminator c <;> simp [ends]

end IrCtl
