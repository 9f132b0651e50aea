import IrCtl.World
import IrCtl.Semantics.Transition

/-!
# Command recognition

`json_parse`: the payload is handed to cJSON, the value under `cmd` is printed
and compared with the command table. cJSON is a parameter.
-/

namespace IrCtl

open CString Transition

/-- The part of cJSON that `json_parse` uses. `parse` reads the string at the
payload, `print` gives the text of the string it allocates. -/
structure CJson where
  Item : Type
  parse : CStr → Option Item
  getObjectItem : Item → CStr → Option Item
  print : Item → CStr

def cmdtbl : List CStr :=
  [lit "\"open_ac\"", lit "\"close_ac\"", lit "\"get_time\"", lit "\"get_status\"",
    lit "\"tgl_status\"", lit "\"tup\"", lit "\"tdown\"", lit "\"soft_sus\"", lit "\"soft_res\""]

/-- The loop over the table: the first entry that agrees with the text on all
the characters the text has. -/
def cmdIndex (cmdStr : CStr) : Option Nat :=
  cmdtbl.findIdx? fun entry => strncmp entry cmdStr cmdStr.length = 0

def heapOp (h : HeapOp) : Prog Unit := .op (.heap h) .ret

def hdlFree (tree : Bool) (cmdStr : Bool) : Prog Int := do
  if tree then heapOp .deleted
  if cmdStr then heapOp .freed
  return -1

def jsonParse (cj : CJson) (data : List UInt8) : Prog Int := do
  let tree := cj.parse (ofMem data)
  if tree.isSome then heapOp .parsed
  match tree.bind fun t => cj.getObjectItem t (lit "cmd") with
  | none => hdlFree tree.isSome false
  | some cmd =>
    let cmdStr := cj.print cmd
    heapOp .printed
    match cmdIndex cmdStr with
    -- the match returns from inside the loop, past `hdl_free`
    | some i => return i
    | none => hdlFree tree.isSome true

/-- The text printed for the value under `cmd`, if the payload has one. -/
def cmdText (cj : CJson) (data : List UInt8) : Option CStr :=
  ((cj.parse (ofMem data)).bind fun t => cj.getObjectItem t (lit "cmd")).map cj.print

/-- The payload holds a command of the table. -/
def Recognised (cj : CJson) (data : List UInt8) : Prop :=
  ∃ text ∈ cmdText cj data, ∃ entry ∈ cmdtbl, strncmp entry text text.length = 0

def cmdCode (cj : CJson) (data : List UInt8) : Int :=
  match (cmdText cj data).bind cmdIndex with
  | some i => i
  | none => -1

/-- What a call of `json_parse` adds to the heap. -/
def jsonLeak (cj : CJson) (data : List UInt8) (heap : Heap) : Heap :=
  match (cmdText cj data).bind cmdIndex with
  | some _ => ⟨heap.trees + 1, heap.strings + 1⟩
  | none => heap

theorem cmdIndex_isSome_iff (text : CStr) :
    (cmdIndex text).isSome ↔ ∃ entry ∈ cmdtbl, strncmp entry text text.length = 0 := by
  simp [cmdIndex, List.findIdx?_isSome, List.any_eq_true]

theorem cmdIndex_lt {text : CStr} {i : Nat} (found : cmdIndex text = some i) : i < 9 := by
  obtain ⟨bound, -⟩ := List.findIdx?_eq_some_iff_getElem.mp found
  exact bound

theorem recognised_iff (cj : CJson) (data : List UInt8) :
    Recognised cj data ↔ ((cmdText cj data).bind cmdIndex).isSome := by
  unfold Recognised
  cases cmdText cj data with
  | none => simp
  | some text => simp [cmdIndex_isSome_iff]

instance (cj : CJson) (data : List UInt8) : Decidable (Recognised cj data) :=
  decidable_of_iff _ (recognised_iff cj data).symm

theorem cmdCode_of_recognised {cj : CJson} {data : List UInt8} (known : Recognised cj data) :
    0 ≤ cmdCode cj data ∧ cmdCode cj data ≤ 8 := by
  obtain ⟨i, found⟩ := Option.isSome_iff_exists.mp ((recognised_iff cj data).mp known)
  rw [cmdCode, found]
  obtain ⟨text, -, index⟩ := Option.bind_eq_some_iff.mp found
  have below := cmdIndex_lt index
  dsimp only
  omega

theorem cmdCode_of_not_recognised {cj : CJson} {data : List UInt8}
    (unknown : ¬ Recognised cj data) : cmdCode cj data = -1 := by
  rw [recognised_iff, Bool.not_eq_true, Option.isSome_eq_false_iff, Option.isNone_iff_eq_none]
    at unknown
  rw [cmdCode, unknown]

/-- `json_parse` returns the command code, touches nothing but the heap, and
gives back what it took unless the command is recognised. -/
theorem exec_jsonParse (cj : CJson) (data : List UInt8) (w : World) :
    w.exec (jsonParse cj data) =
      (cmdCode cj data, { w with heap := jsonLeak cj data w.heap }) := by
  unfold jsonParse cmdCode jsonLeak cmdText
  cases cj.parse (ofMem data) with
  | none => rfl
  | some tree =>
    cases found : cj.getObjectItem tree (lit "cmd") with
    | none =>
      simp only [Option.isSome_some, Option.bind_some, found, Option.map_none, Option.bind_none]
      rfl
    | some cmd =>
      simp only [Option.isSome_some, Option.bind_some, found, Option.map_some]
      cases index : cmdIndex (cj.print cmd) with
      | none => rfl
      | some i => rfl

/-! ### The heap over a sequence of payloads -/

def received (cj : CJson) (w : World) (data : List UInt8) : World :=
  (w.exec (jsonParse cj data)).2

theorem jsonLeak_eq_iff (cj : CJson) (data : List UInt8) (heap : Heap) :
    jsonLeak cj data heap = heap ↔ ¬ Recognised cj data := by
  rw [recognised_iff, jsonLeak]
  cases (cmdText cj data).bind cmdIndex with
  | none => simp
  | some i =>
    constructor
    · intro same
      have trees := congrArg Heap.trees same
      dsimp only at trees
      omega
    · simp

/-- `json_parse` gives back every allocation exactly when no payload of the
sequence holds a command of the table. -/
theorem jsonParse_balanced_iff (cj : CJson) (w : World) (payloads : List (List UInt8)) :
    Each (received cj) (fun w data => (received cj w data).heap = w.heap) w payloads ↔
      ∀ data ∈ payloads, ¬ Recognised cj data := by
  apply each_iff_forall_mem
  intro w data
  rw [received, exec_jsonParse]
  exact jsonLeak_eq_iff cj data w.heap

/-- Each recognised command leaks one tree and one string, for good. -/
theorem received_heap (cj : CJson) (w : World) (payloads : List (List UInt8)) :
    (payloads.foldl (received cj) w).heap =
      ⟨w.heap.trees + payloads.countP fun data => Recognised cj data,
        w.heap.strings + payloads.countP fun data => Recognised cj data⟩ := by
  induction payloads generalizing w with
  | nil => rfl
  | cons data payloads ih =>
    rw [List.foldl_cons, ih, List.countP_cons, received, exec_jsonParse]
    by_cases known : Recognised cj data
    · obtain ⟨i, index⟩ := Option.isSome_iff_exists.mp ((recognised_iff cj data).mp known)
      simp only [jsonLeak, index, known, decide_true, if_true, Heap.mk.injEq]
      omega
    · simp [(jsonLeak_eq_iff cj data w.heap).mpr known, known]

/-! ### cJSON on the payloads the examples use -/

/-- cJSON on the objects with the one member `cmd` and no blanks; an item is
the text of its value. -/
def flatCJson : CJson where
  Item := CStr
  parse s := if lit "\x7b\"cmd\":" <+: s ∧ lit "\x7d" <:+ s then some s else none
  getObjectItem item name := if name = lit "cmd" then some ((item.drop 7).dropLast) else none
  print item := item

/-- The payload that carries a command. -/
def payload (name : String) : List UInt8 := lit "\x7b\"cmd\":\"" ++ lit name ++ lit "\"\x7d"

theorem jsonParse_leaks_tup :
    ¬ Each (received flatCJson) (fun w data => (received flatCJson w data).heap = w.heap)
      (.boot 0) [payload "tup"] := by
  rw [each_cons]
  rintro ⟨unchanged, -⟩
  revert unchanged
  decide

end IrCtl
