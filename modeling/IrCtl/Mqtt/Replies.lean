import IrCtl.Mqtt.Handler

/-!
# Replies and responses

What the handler publishes for each message of a sequence: one reply to the
command, and a response to the request its topic names.
-/

namespace IrCtl

open CString Transition

def handled (cj : CJson) (w : World) (message : MqttEvent × List UInt8) : World :=
  (w.exec (mqttDataEventHandler cj message.1 message.2)).2

def published (w w' : World) : List (CStr × CStr) := w'.pubs.drop w.pubs.length

def isResponse (m : CStr × CStr) : Bool := responsePrefix.isPrefixOf m.1

def commandReplies (w w' : World) : List (CStr × CStr) :=
  (published w w').filter fun m => !isResponse m

theorem handled_published (cj : CJson) (w : World) (message : MqttEvent × List UInt8) :
    published w (handled cj w message) =
      (cmdReply (cmdCode cj message.1.data) (handled cj w message) ::
        if cmdCode cj message.1.data = 8 then [undefine] else []) ++
      responses message.1 message.2 := by
  obtain ⟨w', switched, ends⟩ := exec_handler cj message.1 message.2 w
  have after : handled cj w message =
      { w' with pubs := w'.pubs ++ responses message.1 message.2 } := by rw [handled, ends]
  rw [after, published, switched.pubs, List.append_assoc, List.drop_left]
  rfl

theorem handled_cfg (cj : CJson) (w : World) (message : MqttEvent × List UInt8) :
    (handled cj w message).cfg = cmdCfg (cmdCode cj message.1.data) w.gtick w.cfg := by
  obtain ⟨w', switched, ends⟩ := exec_handler cj message.1 message.2 w
  rw [handled, ends]
  exact switched.cfg

theorem responses_isResponse (event : MqttEvent) (requestId : List UInt8) :
    ∀ m ∈ responses event requestId, isResponse m = true := by
  intro m member
  simp only [responses] at member
  split at member
  · cases member
  · rw [List.mem_singleton] at member
    subst member
    rw [isResponse, List.isPrefixOf_iff_prefix]
    exact List.prefix_append _ _

theorem cmdReply_known {code : Int} (low : 0 ≤ code) (high : code ≤ 8) (w : World) :
    (cmdReply code w).1 = acPub := by
  induction code using cmdCode_cases with
  | known i => fin_cases i <;> rfl
  | other code outside => omega

theorem acPub_ne_userApp : acPub ≠ userApp := by decide

theorem undefine_not_response : isResponse undefine = false := by decide

theorem cmdReply_not_response (code : Int) (w : World) : isResponse (cmdReply code w) = false := by
  by_cases inside : 0 ≤ code ∧ code ≤ 8
  · rw [isResponse, cmdReply_known inside.1 inside.2]
    decide
  · rw [cmdReply_other (by omega)]
    exact undefine_not_response

theorem commandReplies_handled (cj : CJson) (w : World) (message : MqttEvent × List UInt8) :
    commandReplies w (handled cj w message) =
      cmdReply (cmdCode cj message.1.data) (handled cj w message) ::
        if cmdCode cj message.1.data = 8 then [undefine] else [] := by
  have none_kept : (responses message.1 message.2).filter (fun m => !isResponse m) = [] := by
    rw [List.filter_eq_nil_iff]
    intro m member
    simp [responses_isResponse message.1 message.2 m member]
  rw [commandReplies, handled_published, List.filter_append, none_kept, List.append_nil]
  split <;> simp [cmdReply_not_response, undefine_not_response]

/-- One truthful reply to a message: the reply of its command, on the channel of
the known commands or as UNDEFINE, reporting the state the handler leaves; and
only the five commands that switch or adjust change the configuration. -/
structure Truthful (cj : CJson) (w : World) (message : MqttEvent × List UInt8) : Prop where
  one : commandReplies w (handled cj w message) =
    [cmdReply (cmdCode cj message.1.data) (handled cj w message)]
  known : Recognised cj message.1.data →
    (cmdReply (cmdCode cj message.1.data) (handled cj w message)).1 = acPub
  unknown : undefine ∈ commandReplies w (handled cj w message) ↔ ¬ Recognised cj message.1.data
  changes : (handled cj w message).cfg ≠ w.cfg → cmdCode cj message.1.data ∈ [0, 1, 4, 5, 6]

theorem truthful_iff (cj : CJson) (w : World) (message : MqttEvent × List UInt8) :
    Truthful cj w message ↔ cmdCode cj message.1.data ≠ 8 := by
  constructor
  · intro truthful resumed
    have one := truthful.one
    rw [commandReplies_handled, if_pos resumed] at one
    cases one
  · intro notResume
    have one := commandReplies_handled cj w message
    rw [if_neg notResume] at one
    refine ⟨one, fun known => ?_, ?_, fun changed => ?_⟩
    · exact cmdReply_known (cmdCode_of_recognised known).1 (cmdCode_of_recognised known).2 _
    · rw [one, List.mem_singleton]
      constructor
      · intro same known
        have topic := cmdReply_known (cmdCode_of_recognised known).1
          (cmdCode_of_recognised known).2 (handled cj w message)
        rw [← same] at topic
        exact acPub_ne_userApp topic.symm
      · intro unknown
        rw [cmdCode_of_not_recognised unknown, cmdReply_other (Or.inl (by decide))]
    · rw [handled_cfg] at changed
      generalize cmdCode cj message.1.data = code at changed
      induction code using cmdCode_cases with
      | known i => fin_cases i <;> simp_all [cmdCfg]
      | other code outside =>
        exact absurd (cmdCfg_other outside w.gtick w.cfg) changed

/-- Handling a sequence of messages gives each one truthful reply exactly when
none of them is `soft_res`, whose arm lacks its `break`. -/
theorem handler_truthful_iff (cj : CJson) (w : World) (messages : List (MqttEvent × List UInt8)) :
    Each (handled cj) (Truthful cj) w messages ↔
      ∀ message ∈ messages, cmdCode cj message.1.data ≠ 8 :=
  each_iff_forall_mem (truthful_iff cj) w messages

def command (name : String) : MqttEvent × List UInt8 := (⟨payload name, none, 0⟩, [0])

theorem handler_undefines_soft_res :
    ¬ Each (handled flatCJson) (Truthful flatCJson) (.boot 0) [command "soft_res"] := by
  rw [each_cons]
  rintro ⟨truthful, -⟩
  have one := truthful.one
  revert one
  decide

/-! ### Responses to requests -/

def requestResponses (w w' : World) : List (CStr × CStr) := (published w w').filter isResponse

theorem requestResponses_handled (cj : CJson) (w : World) (message : MqttEvent × List UInt8) :
    requestResponses w (handled cj w message) = responses message.1 message.2 := by
  have first := cmdReply_not_response (cmdCode cj message.1.data) (handled cj w message)
  have kept : (responses message.1 message.2).filter isResponse = responses message.1 message.2 :=
    List.filter_eq_self.mpr (responses_isResponse message.1 message.2)
  rw [requestResponses, handled_published, List.filter_append, kept]
  split <;> simp [first, undefine_not_response]

theorem response_inj {id id' : CStr} (same : response id = response id') : id = id' :=
  List.append_cancel_left (Prod.ext_iff.mp same).1

/-- An event on a topic; `rest` is the memory behind the topic. -/
def onTopic (data topic rest : List UInt8) : MqttEvent :=
  ⟨data, some (topic ++ rest), topic.length⟩

/-- The request a topic names is answered under its own id, and no other. -/
structure AnswersRequest (cj : CJson) (w : World) (data topic rest requestId : List UInt8) :
    Prop where
  named : ∀ p, MarkAt topic p → 1 ≤ (idFrom topic (p + 11)).length →
    (idFrom topic (p + 11)).length ≤ 63 →
    requestResponses w (handled cj w (onTopic data topic rest, requestId)) =
      [response (idFrom topic (p + 11))]
  unnamed : (∀ p, MarkAt topic p → idFrom topic (p + 11) = []) →
    requestResponses w (handled cj w (onTopic data topic rest, requestId)) = []

theorem responses_onTopic {topic : List UInt8} (long : 1 < topic.length)
    (data rest requestId : List UInt8) :
    responses (onTopic data topic rest) requestId =
      if foundId (topic ++ rest) topic.length = [] then []
      else [response (foundId (topic ++ rest) topic.length)] := by
  simp only [responses, onTopic, ofMem_getRequestId long]

/-- The skip of twelve bytes loses the first byte of every id: a request is
answered as it should only where there is no id to answer, and not even the
byte behind an empty id starts one. -/
theorem handler_answers_request_iff (cj : CJson) (w : World) (data topic rest requestId : List UInt8)
    (long : 1 < topic.length) :
    AnswersRequest cj w data topic rest requestId ↔
      ∀ p, MarkAt topic p → 63 < (idFrom topic (p + 11)).length ∨
        idFrom topic (p + 11) = [] ∧ ∀ c, topic[p + 12]? = some c → isTerminator c := by
  constructor
  · intro answers p found
    have sent := requestResponses_handled cj w (onTopic data topic rest, requestId)
    rw [responses_onTopic long, foundId_marked found] at sent
    cases id : idFrom topic (p + 11) with
    | nil =>
      refine Or.inr ⟨rfl, (idFrom_eq_nil_iff topic (p + 12)).mp ?_⟩
      have silent := answers.unnamed fun q other => by rw [← markAt_unique found other, id]
      rw [sent] at silent
      by_contra some_id
      rw [if_neg some_id] at silent
      cases silent
    | cons c cs =>
      -- the id read is `cs`, the id of the topic is `c :: cs`
      refine Or.inl ?_
      by_contra short
      have rest_id : idFrom topic (p + 12) = cs := idFrom_succ id
      have answered := answers.named p found (by rw [id]; simp) (by rw [id]; omega)
      rw [sent, id, rest_id] at answered
      split at answered
      · cases answered
      · have same := response_inj (List.singleton_inj.mp answered)
        exact List.cons_ne_self c cs same.symm
  · intro condition
    constructor
    · intro p found low high
      rcases condition p found with long_id | ⟨empty, -⟩
      · omega
      · rw [empty] at low
        exact absurd low (by simp)
    · intro no_id
      rw [requestResponses_handled]
      by_cases marked : ∃ p, MarkAt topic p
      · obtain ⟨p, found⟩ := marked
        rcases condition p found with long_id | ⟨-, ends⟩
        · rw [no_id p found] at long_id
          exact absurd long_id (by simp)
        · rw [responses_onTopic long, foundId_marked found,
            if_pos ((idFrom_eq_nil_iff topic (p + 12)).mpr ends)]
      · rw [responses_onTopic long, foundId_unmarked (not_exists.mp marked), if_pos rfl]

/-- An id of 64 bytes. -/
def longRequest : List UInt8 := requestIdMark ++ List.replicate 64 97

/-- A topic without the mark, and a request with an id too long to answer. -/
theorem handler_answers_request_iff_long :
    AnswersRequest flatCJson (.boot 0) (payload "tup") (lit "M2M/ACSWI") (lit "request_id=7") [0] ∧
      AnswersRequest flatCJson (.boot 0) (payload "tup") longRequest [] [0] := by
  constructor
  · apply (handler_answers_request_iff flatCJson _ _ (lit "M2M/ACSWI") _ _ (by decide)).mpr
    intro p found
    have short := found.1.length_le
    have mark : requestIdMark.length = 11 := rfl
    have topic : (ofMem (lit "M2M/ACSWI")).length = 9 := by decide
    rw [List.length_drop] at short
    omega
  · apply (handler_answers_request_iff flatCJson _ _ longRequest _ _ (by decide)).mpr
    intro p found
    have first : MarkAt longRequest 0 :=
      ⟨by decide, fun q early => absurd early (Nat.not_lt_zero q)⟩
    rw [markAt_unique found first]
    exact Or.inl (by decide)

theorem handler_drops_request_7 :
    ¬ AnswersRequest flatCJson (.boot 0) [] (lit "request_id=7") [] [0] := by
  intro answers
  have found : MarkAt (lit "request_id=7") 0 :=
    ⟨by decide, fun q early => absurd early (Nat.not_lt_zero q)⟩
  have answered := answers.named 0 found (by decide) (by decide)
  revert answered
  decide

end IrCtl
