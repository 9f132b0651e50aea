import IrCtl.Mqtt.Replies

/-!
# Memory around the request id

The id is searched for past the end of the topic, copied into a buffer on the
stack of the handler and printed into another: what of that memory the response
depends on, and when the buffers hold it.
-/

namespace IrCtl

open CString

/-! ### What follows the topic -/

/-- The id depends on the bytes of the topic alone. An occurrence of the mark
that ends behind the topic counts for none. -/
theorem getRequestId_ignores_rest {topic : List UInt8} (long : 1 < topic.length)
    (rest rest' requestId requestId' : List UInt8) :
    ofMem (getRequestId (some (topic ++ rest)) topic.length requestId) =
      ofMem (getRequestId (some (topic ++ rest')) topic.length requestId') ∧
    ((∀ q, strstr requestIdMark (ofMem (topic ++ rest)) = some q →
        topic.length < q + requestIdMark.length) →
      ofMem (getRequestId (some (topic ++ rest)) topic.length requestId) = []) := by
  rw [ofMem_getRequestId long, ofMem_getRequestId long, requestIdMark_length]
  refine ⟨?_, foundId_behind⟩
  by_cases marked : ∃ p, MarkAt topic p
  · obtain ⟨p, found⟩ := marked
    rw [foundId_marked found, foundId_marked found]
  · rw [foundId_unmarked (not_exists.mp marked), foundId_unmarked (not_exists.mp marked)]

/-- A payload that names a request behind a topic that names none. -/
theorem getRequestId_ignores_rest_forged :
    ofMem (getRequestId (some (lit "cmd" ++ lit "request_id=77")) 3 [65, 0]) =
      ofMem (getRequestId (some (lit "cmd" ++ [0])) 3 [66, 0]) ∧
    ((∀ q, strstr requestIdMark (ofMem (lit "cmd" ++ lit "request_id=77")) = some q →
        3 < q + requestIdMark.length) →
      ofMem (getRequestId (some (lit "cmd" ++ lit "request_id=77")) 3 [65, 0]) = []) :=
  have long : 1 < (lit "cmd").length := by decide
  getRequestId_ignores_rest long (lit "request_id=77") [0] [65, 0] [66, 0]

/-! ### What the stack holds -/

/-- Without a topic, or with one of a single byte, the call returns early. -/
theorem getRequestId_early {topic : Option (List UInt8)} {dlen : Nat}
    (early : topic = none ∨ dlen ≤ 1) (requestId : List UInt8) :
    getRequestId topic dlen requestId = requestId := by
  cases topic with
  | none => rfl
  | some data =>
    rcases early with missing | short
    · cases missing
    · exact if_pos short

/-- The handler then answers whatever request the stack happens to name. -/
theorem responses_early {event : MqttEvent} (early : event.topic = none ∨ event.topicLen ≤ 1) :
    responses event (List.replicate 64 0) ≠ responses event (65 :: List.replicate 63 0) := by
  simp only [responses, getRequestId_early early]
  decide

/-- What the buffer held before is of no consequence exactly for the events that
have a topic of more than one byte; `get_request_id` returns early on others and
leaves the buffer as it is. -/
theorem handler_ignores_stack_iff (cj : CJson) (w : World) (event : MqttEvent) :
    (∀ requestId requestId' : List UInt8, requestId.length = 64 → requestId'.length = 64 →
        requestResponses w (handled cj w (event, requestId)) =
          requestResponses w (handled cj w (event, requestId'))) ↔
      event.topic ≠ none ∧ 1 < event.topicLen := by
  simp only [requestResponses_handled]
  constructor
  · intro same
    by_contra absent
    have early : event.topic = none ∨ event.topicLen ≤ 1 := by
      rwa [not_and_or, not_not, Nat.not_lt] at absent
    exact responses_early early (same _ _ rfl rfl)
  · rintro ⟨topic, long⟩ requestId requestId' - -
    obtain ⟨data, here⟩ := Option.ne_none_iff_exists'.mp topic
    simp only [responses, here, ofMem_getRequestId long]

/-- A later fragment of a long message, which comes without a topic. -/
theorem handler_answers_from_stack :
    ¬ ∀ requestId requestId' : List UInt8, requestId.length = 64 → requestId'.length = 64 →
      requestResponses (.boot 0) (handled flatCJson (.boot 0) (⟨[], none, 0⟩, requestId)) =
        requestResponses (.boot 0) (handled flatCJson (.boot 0) (⟨[], none, 0⟩, requestId')) := by
  intro same
  have answers := same (List.replicate 64 0) (65 :: List.replicate 63 0) rfl rfl
  rw [requestResponses_handled, requestResponses_handled] at answers
  exact responses_early (Or.inl rfl) answers

/-! ### Bounds -/

/-- A byte of the topic read by the copy loop, or one stored into the buffer. -/
inductive Access where
  | read (i : Nat)
  | store (i : Nat) (c : UInt8)
  deriving DecidableEq, Repr

/-- The copy loop and the store behind it, with `fuel` bounding the turns;
`out` counts the bytes stored. -/
def copyAccesses (data : List UInt8) (dlen : Nat) : Nat → Nat → Nat → List Access
  | 0, _, _ => []
  | fuel + 1, pos, out =>
    -- the byte is read before its index is tested
    .read pos ::
      if !isTerminator (byteAt data pos) && pos < dlen then
        .store out (byteAt data pos) :: copyAccesses data dlen fuel (pos + 1) (out + 1)
      else [.store out 0]

/-- What `get_request_id` reads in its loop and what it stores. -/
def requestIdAccesses (data : Option (List UInt8)) (dlen : Nat) : List Access :=
  match data with
  | none => []
  | some data =>
    if dlen ≤ 1 then []
    else
      match strstr requestIdMark (ofMem data) with
      | none => [.store 0 0]
      | some pos => copyAccesses data dlen dlen (pos + 12) 0

theorem requestIdAccesses_early {topic : Option (List UInt8)} {dlen : Nat}
    (early : topic = none ∨ dlen ≤ 1) : requestIdAccesses topic dlen = [] := by
  cases topic with
  | none => rfl
  | some data =>
    rcases early with missing | short
    · cases missing
    · exact if_pos short

def Access.perform (requestId : List UInt8) : Access → List UInt8
  | .read _ => requestId
  | .store i c => requestId.set i c

def Access.InBounds (dlen : Nat) : Access → Prop
  | .read i => i < dlen
  | .store i _ => i < 64

/-- The accesses of copying `id` from `pos` to `out`, up to the store behind it. -/
def idAccesses : Nat → Nat → CStr → List Access
  | pos, out, [] => [.read pos, .store out 0]
  | pos, out, c :: cs => .read pos :: .store out c :: idAccesses (pos + 1) (out + 1) cs

section Loop

variable {data : List UInt8} {dlen fuel pos : Nat}

/-- The loop has turns enough, and reads and stores the id it yields. -/
theorem copyAccesses_eq (enough : dlen ≤ fuel + pos) (out : Nat) :
    copyAccesses data dlen (fuel + 1) pos out =
      idAccesses pos out (copyLoop data dlen (fuel + 1) pos) := by
  induction fuel generalizing pos out with
  | zero =>
    have outside : ¬ pos < dlen := by omega
    simp [copyAccesses, copyLoop, outside, idAccesses]
  | succ fuel ih =>
    rw [copyAccesses, copyLoop]
    split
    · rw [ih (by omega), idAccesses]
    · rfl

/-- The loop ends before the end of the topic, and before the `n`th byte, where
it meets a terminator. -/
theorem copyLoop_lt_iff (enough : dlen ≤ fuel + pos) (n : Nat) :
    pos + (copyLoop data dlen fuel pos).length < dlen ∧ (copyLoop data dlen fuel pos).length < n ↔
      ∃ q, pos ≤ q ∧ q < dlen ∧ q < pos + n ∧ isTerminator (byteAt data q) := by
  induction fuel generalizing pos n with
  | zero =>
    constructor
    · rintro ⟨inside, -⟩
      omega
    · rintro ⟨q, behind, inside, -⟩
      omega
  | succ fuel ih =>
    rw [copyLoop]
    split
    · next copied =>
      obtain ⟨plain, inside⟩ : isTerminator (byteAt data pos) = false ∧ pos < dlen := by
        simpa using copied
      have later := ih (by omega : dlen ≤ fuel + (pos + 1)) (n - 1)
      rw [List.length_cons]
      constructor
      · rintro ⟨within, few⟩
        obtain ⟨q, behind, before, near, ends⟩ := later.mp ⟨by omega, by omega⟩
        exact ⟨q, by omega, before, by omega, ends⟩
      · rintro ⟨q, behind, before, near, ends⟩
        have other : q ≠ pos := by
          rintro rfl
          exact absurd ends (by simp [plain])
        obtain ⟨within, few⟩ := later.mpr ⟨q, by omega, before, by omega, ends⟩
        exact ⟨by omega, by omega⟩
    · next stopped =>
      rw [List.length_nil]
      constructor
      · rintro ⟨within, few⟩
        have ends : isTerminator (byteAt data pos) = true := by
          by_contra plain
          exact stopped (by simpa [plain] using within)
        exact ⟨pos, Nat.le_refl pos, within, by omega, ends⟩
      · rintro ⟨q, behind, before, near, -⟩
        exact ⟨by omega, by omega⟩

end Loop

/-- The bytes stored are those of the id and a NUL, in turn. -/
theorem foldl_idAccesses (pos : Nat) (id stored back : List UInt8) (room : id.length < back.length) :
    (idAccesses pos stored.length id).foldl Access.perform (stored ++ back) =
      stored ++ (id ++ [0] ++ back.drop (id.length + 1)) := by
  induction id generalizing pos stored back with
  | nil =>
    cases back with
    | nil => exact absurd room (Nat.not_lt_zero _)
    | cons b back => simp [idAccesses, Access.perform]
  | cons c cs ih =>
    cases back with
    | nil => exact absurd room (Nat.not_lt_zero _)
    | cons b back =>
      have next := ih (pos + 1) (stored ++ [c]) back (by simpa using room)
      rw [List.length_append, List.length_singleton, List.append_assoc] at next
      simpa [idAccesses, Access.perform, List.set_append_right] using next

theorem idAccesses_inBounds_iff (dlen pos out : Nat) (id : CStr) :
    (∀ a ∈ idAccesses pos out id, a.InBounds dlen) ↔
      pos + id.length < dlen ∧ out + id.length < 64 := by
  induction id generalizing pos out with
  | nil => simp [idAccesses, Access.InBounds]
  | cons c cs ih =>
    rw [idAccesses, List.forall_mem_cons, List.forall_mem_cons, ih, List.length_cons]
    simp only [Access.InBounds]
    omega

/-- Where all stores fall into the buffer, they leave what the call leaves. -/
theorem foldl_requestIdAccesses {data : Option (List UInt8)} {dlen : Nat} {requestId : List UInt8}
    (room : 64 ≤ requestId.length)
    (fits : ∀ a ∈ requestIdAccesses data dlen, a.InBounds dlen) :
    (requestIdAccesses data dlen).foldl Access.perform requestId =
      getRequestId data dlen requestId := by
  by_cases early : data = none ∨ dlen ≤ 1
  · rw [requestIdAccesses_early early, getRequestId_early early]
    rfl
  · obtain ⟨here, long⟩ : data ≠ none ∧ 1 < dlen := by rwa [not_or, Nat.not_le] at early
    obtain ⟨data, rfl⟩ := Option.ne_none_iff_exists'.mp here
    have short : ¬ dlen ≤ 1 := by omega
    simp only [requestIdAccesses, getRequestId, short, if_false] at fits ⊢
    cases found : strstr requestIdMark (ofMem data) with
    | none =>
      cases requestId with
      | nil => exact absurd room (by decide)
      | cons c cs => rfl
    | some p =>
      obtain ⟨fuel, rfl⟩ : ∃ fuel, dlen = fuel + 1 := ⟨dlen - 1, by omega⟩
      rw [found] at fits
      dsimp only at fits ⊢
      rw [copyAccesses_eq (by omega)] at fits ⊢
      rw [idAccesses_inBounds_iff] at fits
      have stored := foldl_idAccesses (p + 12) (copyLoop data (fuel + 1) (fuel + 1) (p + 12)) []
        requestId (by omega)
      simpa using stored

/-- A terminator ends the id in the topic and within 64 bytes. -/
def IdEnds (data : List UInt8) (dlen : Nat) : Prop :=
  ∀ p, strstr requestIdMark (ofMem data) = some p →
    ∃ q, p + 12 ≤ q ∧ q < dlen ∧ q < p + 12 + 64 ∧ isTerminator (byteAt data q)

theorem requestIdAccesses_inBounds_iff {dlen : Nat} (long : 1 < dlen) (data : List UInt8) :
    (∀ a ∈ requestIdAccesses (some data) dlen, a.InBounds dlen) ↔ IdEnds data dlen := by
  have short : ¬ dlen ≤ 1 := by omega
  simp only [requestIdAccesses, IdEnds, short, if_false]
  cases strstr requestIdMark (ofMem data) with
  | none => simp [Access.InBounds]
  | some p =>
    obtain ⟨fuel, rfl⟩ : ∃ fuel, dlen = fuel + 1 := ⟨dlen - 1, by omega⟩
    dsimp only
    rw [copyAccesses_eq (by omega), idAccesses_inBounds_iff, Nat.zero_add,
      copyLoop_lt_iff (by omega)]
    simp

theorem foundId_length {data : List UInt8} {dlen : Nat} (ends : IdEnds data dlen) :
    (foundId data dlen).length < 64 := by
  rw [foundId]
  cases found : strstr requestIdMark (ofMem data) with
  | none => exact Nat.succ_pos 63
  | some p => exact ((copyLoop_lt_iff (by omega) 64).mpr (ends p found)).2

/-- The topic of a response with its NUL takes 76 bytes besides the id. -/
theorem responses_fit_iff (event : MqttEvent) (requestId : List UInt8) :
    (∀ m ∈ responses event requestId, m.1.length + 1 ≤ 196) ↔
      (ofMem (getRequestId event.topic event.topicLen requestId)).length ≤ 120 := by
  have fixed : responsePrefix.length = 75 := by decide
  rw [responses]
  generalize ofMem (getRequestId event.topic event.topicLen requestId) = id
  by_cases empty : id = []
  · simp [empty]
  · simp only [empty, if_false, List.forall_mem_singleton, response, List.length_append, fixed]
    omega

/-- The id fits: every access is in bounds, and so is the topic of the response
that is printed, with its NUL, into a buffer of 196 bytes. -/
structure RequestIdFits (cj : CJson) (w : World) (event : MqttEvent) (requestId : List UInt8) :
    Prop where
  accesses : ∀ a ∈ requestIdAccesses event.topic event.topicLen, a.InBounds event.topicLen
  printed : ∀ m ∈ requestResponses w (handled cj w (event, requestId)), m.1.length + 1 ≤ 196

/-- For a topic of more than one byte the id fits exactly where a terminator
ends it in time; for an event without one, where the string the stack happens to
hold is short enough to be printed, `requestId` being the memory from the buffer
on. -/
theorem handler_requestId_fits_iff (cj : CJson) (w : World) (event : MqttEvent)
    (requestId : List UInt8) :
    RequestIdFits cj w event requestId ↔
      (∀ data, event.topic = some data → 1 < event.topicLen → IdEnds data event.topicLen) ∧
      (event.topic = none ∨ event.topicLen ≤ 1 → (ofMem requestId).length ≤ 120) := by
  constructor
  · rintro ⟨accesses, printed⟩
    rw [requestResponses_handled, responses_fit_iff] at printed
    constructor
    · intro data topic long
      rw [topic] at accesses
      exact (requestIdAccesses_inBounds_iff long data).mp accesses
    · intro early
      rwa [getRequestId_early early] at printed
  · rintro ⟨ends, stale⟩
    by_cases early : event.topic = none ∨ event.topicLen ≤ 1
    · constructor
      · rw [requestIdAccesses_early early]
        exact List.forall_mem_nil _
      · rw [requestResponses_handled, responses_fit_iff, getRequestId_early early]
        exact stale early
    · obtain ⟨topic, long⟩ : event.topic ≠ none ∧ 1 < event.topicLen := by
        rwa [not_or, Nat.not_le] at early
      obtain ⟨data, here⟩ := Option.ne_none_iff_exists'.mp topic
      have intime := ends data here long
      constructor
      · rw [here]
        exact (requestIdAccesses_inBounds_iff long data).mpr intime
      · rw [requestResponses_handled, responses_fit_iff, here, ofMem_getRequestId long]
        have fits := foundId_length intime
        omega

/-- An id of 65 bytes. -/
theorem handler_requestId_overflows :
    ¬ RequestIdFits flatCJson (.boot 0)
      (onTopic [] (lit "request_id=" ++ List.replicate 66 55) []) (List.replicate 64 0) := by
  rintro ⟨accesses, -⟩
  have stored : Access.store 64 55 ∈
      requestIdAccesses (some (lit "request_id=" ++ List.replicate 66 55 ++ [])) 77 := by decide
  have inside : 64 < 64 := accesses _ stored
  omega

end IrCtl
