import IrCtl.Mqtt.Json

/-!
# Exact recognition

What `json_parse` recognises, from what cJSON is known to do: how it prints a
value, and that it reads one value and no further.
-/

namespace IrCtl

open CString

/-! ### Printed values -/

/-- The characters of a string that are printed as escapes. -/
def Special (c : UInt8) : Prop := c = 34 ∨ c = 92 ∨ c < 32

instance (c : UInt8) : Decidable (Special c) := inferInstanceAs (Decidable (_ ∨ _))

def printedBody (escape : UInt8 → CStr) (content : CStr) : CStr :=
  content.flatMap fun c => if Special c then escape c else [c]

/-- `cJSON_Print`: `content` gives the bytes of an item that is a string. -/
structure Prints (cj : CJson) (content : cj.Item → Option CStr) (escape : UInt8 → CStr) : Prop where
  escapes : ∀ c, Special c → ∃ cs, escape c = 92 :: cs
  string : ∀ item s, content item = some s → cj.print item = 34 :: printedBody escape s ++ [34]
  other : ∀ item, content item = none → ∃ c cs, cj.print item = c :: cs ∧ c ≠ 34

/-- The names of the table, without the quotes. -/
def cmdNames : List CStr := cmdtbl.map fun entry => (entry.drop 1).dropLast

/-- A name is printed as it stands. -/
def Plain (name : CStr) : Prop := ∀ c ∈ name, ¬ Special c

theorem cmdNames_plain : ∀ name ∈ cmdNames, Plain name := by
  have all : cmdNames.all fun name => name.all fun c => ¬ Special c := by decide
  simpa [Plain] using all

theorem cmdtbl_eq : cmdtbl = cmdNames.map fun name => 34 :: name ++ [34] := by decide

theorem cmdNames_nodup : cmdNames.Nodup := by decide

section Printed

variable {escape : UInt8 → CStr}

/-- A closed name agrees with a printed string on all of it only if the string
is the name: an escape begins with a character no name has. -/
theorem strncmp_printedBody (escapes : ∀ c, Special c → ∃ cs, escape c = 92 :: cs) {name : CStr}
    (plain : Plain name) (content : CStr) :
    strncmp (name ++ [34]) (printedBody escape content ++ [34])
      (printedBody escape content ++ [34]).length = 0 ↔ name = content := by
  induction content generalizing name with
  | nil =>
    cases name with
    | nil => simp [printedBody, strncmp]
    | cons a as =>
      have differs : a ≠ 34 := fun quote => plain a List.mem_cons_self (Or.inl quote)
      have empty : printedBody escape [] = [] := rfl
      rw [empty, List.nil_append, List.cons_append, strncmp_cons_eq_zero_iff]
      simp [differs]
  | cons c cs ih =>
    -- the first character printed is `c` itself, or a backslash
    obtain ⟨d, ds, printed, head⟩ : ∃ d ds, printedBody escape (c :: cs) ++ [34] = d :: ds ∧
        (Special c ∧ d = 92 ∨ ¬ Special c ∧ d = c ∧ ds = printedBody escape cs ++ [34]) := by
      by_cases special : Special c
      · obtain ⟨es, escaped⟩ := escapes c special
        refine ⟨92, es ++ (printedBody escape cs ++ [34]), ?_, Or.inl ⟨special, rfl⟩⟩
        simp [printedBody, special, escaped]
      · refine ⟨c, printedBody escape cs ++ [34], ?_, Or.inr ⟨special, rfl, rfl⟩⟩
        simp [printedBody, special]
    rw [printed]
    cases name with
    | nil =>
      have differs : (34 : UInt8) ≠ d := by
        rcases head with ⟨-, rfl⟩ | ⟨ordinary, rfl, -⟩
        · decide
        · exact fun quote => ordinary (Or.inl quote.symm)
      rw [List.nil_append, strncmp_cons_eq_zero_iff]
      simp [differs]
    | cons a as =>
      have plain_as : Plain as := fun b member => plain b (List.mem_cons_of_mem a member)
      rw [List.cons_append, strncmp_cons_eq_zero_iff, List.cons.injEq]
      rcases head with ⟨special, rfl⟩ | ⟨-, rfl, rfl⟩
      · have ordinary := plain a List.mem_cons_self
        constructor
        · rintro ⟨backslash, -⟩
          exact absurd (Or.inr (Or.inl backslash)) ordinary
        · rintro ⟨same, -⟩
          exact absurd (same ▸ special) ordinary
      · rw [ih plain_as]

end Printed

/-- The text of a string value is found in the table where its content is found
among the names. -/
theorem cmdIndex_printed {escape : UInt8 → CStr}
    (escapes : ∀ c, Special c → ∃ cs, escape c = 92 :: cs) (content : CStr) (i : Nat) :
    cmdIndex (34 :: printedBody escape content ++ [34]) = some i ↔ cmdNames[i]? = some content := by
  have agrees : ∀ name ∈ cmdNames,
      (strncmp (34 :: name ++ [34]) (34 :: printedBody escape content ++ [34])
        (34 :: printedBody escape content ++ [34]).length = 0 ↔ name = content) := by
    intro name member
    rw [List.cons_append, List.cons_append, strncmp_cons_eq_zero_iff, eq_self, true_and]
    exact strncmp_printedBody escapes (cmdNames_plain name member) content
  rw [cmdIndex, cmdtbl_eq, List.findIdx?_map, List.findIdx?_eq_some_iff_getElem,
    List.getElem?_eq_some_iff]
  refine exists_congr fun bound => ?_
  simp only [Function.comp_apply, decide_eq_true_eq, agrees _ (List.getElem_mem _)]
  constructor
  · exact And.left
  · intro found
    refine ⟨found, fun j before again => ?_⟩
    have same := cmdNames_nodup.getElem_inj_iff.mp (again.trans found.symm)
    omega

/-- No entry begins like the text of a value that is no string. -/
theorem cmdIndex_other {c : UInt8} (other : c ≠ 34) (cs : CStr) : cmdIndex (c :: cs) = none := by
  rw [cmdIndex, cmdtbl_eq, List.findIdx?_map, List.findIdx?_eq_none_iff]
  intro name _
  rw [Function.comp_apply, decide_eq_false_iff_not, List.cons_append, strncmp_cons_eq_zero_iff]
  exact fun agrees => other agrees.1.symm

/-- `json_parse` returns the index of the name that the value under `cmd` is, as
a string, and -1 for every other value. -/
theorem jsonParse_exact {cj : CJson} {content : cj.Item → Option CStr} {escape : UInt8 → CStr}
    (prints : Prints cj content escape) {data : List UInt8} {tree item : cj.Item}
    (parsed : cj.parse (ofMem data) = some tree)
    (held : cj.getObjectItem tree (lit "cmd") = some item) (w : World) :
    (∀ i : Nat, (w.exec (jsonParse cj data)).1 = i ↔
      ∃ s, content item = some s ∧ cmdNames[i]? = some s) ∧
    ((∀ s, content item = some s → s ∉ cmdNames) → (w.exec (jsonParse cj data)).1 = -1) := by
  have code : (w.exec (jsonParse cj data)).1 = cmdCode cj data := by rw [exec_jsonParse]
  have text : cmdText cj data = some (cj.print item) := by
    rw [cmdText, parsed, Option.bind_some, held, Option.map_some]
  have index : ∀ i : Nat, cmdCode cj data = i ↔ cmdIndex (cj.print item) = some i := by
    intro i
    rw [cmdCode, text, Option.bind_some]
    cases cmdIndex (cj.print item) with
    | none => simp
    | some j => simp
  have value : ∀ i : Nat, cmdIndex (cj.print item) = some i ↔
      ∃ s, content item = some s ∧ cmdNames[i]? = some s := by
    intro i
    cases held : content item with
    | none =>
      obtain ⟨c, cs, printed, other⟩ := prints.other item held
      rw [printed, cmdIndex_other other]
      simp
    | some s =>
      rw [prints.string item s held, cmdIndex_printed prints.escapes]
      simp
  rw [code]
  refine ⟨fun i => (index i).trans (value i), fun foreign => ?_⟩
  cases found : cmdIndex (cj.print item) with
  | none => rw [cmdCode, text, Option.bind_some, found]
  | some i =>
    obtain ⟨s, string, name⟩ := (value i).mp found
    exact absurd (List.mem_of_getElem? name) (foreign s string)

/-! ### cJSON on one member -/

/-- The value in the text of a member: the content of a string, or another text. -/
def memberValue (text : CStr) : CStr ⊕ CStr :=
  if text.head? = some 34 then .inl (text.drop 1).dropLast else .inr text

/-- An object with the one member `cmd`, without blanks, nested values or
escapes, whatever follows it. -/
def memberParse (s : CStr) : Option (CStr ⊕ CStr) :=
  if lit "\x7b\"cmd\":" <+: s ∧ 125 ∈ s.drop 7 then
    some (memberValue ((s.drop 7).takeWhile (· ≠ 125)))
  else none

/-- cJSON on such objects. -/
def memberCJson : CJson where
  Item := CStr ⊕ CStr
  parse := memberParse
  getObjectItem item name := if name = lit "cmd" then some item else none
  print
    | .inl content => 34 :: printedBody (fun c => [92, c]) content ++ [34]
    | .inr text => if text.head?.all (· = 34) then lit "null" else text

theorem memberCJson_prints : Prints memberCJson Sum.getLeft? fun c => [92, c] where
  escapes := fun c _ => ⟨[c], rfl⟩
  string := by
    rintro (content | text) s string
    · cases string
      rfl
    · cases string
  other := by
    rintro (content | text) other
    · cases other
    · cases text with
      | nil => exact ⟨110, lit "ull", rfl, by decide⟩
      | cons c cs =>
        by_cases quote : c = 34
        · exact ⟨110, lit "ull", by simp [memberCJson, quote]; rfl, by decide⟩
        · exact ⟨c, cs, by simp [memberCJson, quote], quote⟩

theorem jsonParse_exact_tup :
    (∀ i : Nat, ((World.boot 0).exec (jsonParse memberCJson (payload "tup"))).1 = i ↔
      ∃ s, Sum.getLeft? (.inl (lit "tup") : CStr ⊕ CStr) = some s ∧ cmdNames[i]? = some s) ∧
    ((∀ s, Sum.getLeft? (.inl (lit "tup") : CStr ⊕ CStr) = some s → s ∉ cmdNames) →
      ((World.boot 0).exec (jsonParse memberCJson (payload "tup"))).1 = -1) :=
  have parsed : memberCJson.parse (ofMem (payload "tup")) = some (.inl (lit "tup")) := rfl
  have held : memberCJson.getObjectItem (.inl (lit "tup")) (lit "cmd") = some (.inl (lit "tup")) := rfl
  jsonParse_exact memberCJson_prints parsed held (.boot 0)

/-! ### What follows the payload -/

/-- `cJSON_Parse` reads one value and accepts what follows it: a text that is
parsed has the same item under `cmd` whatever comes behind. -/
def AcceptsTrailing (cj : CJson) : Prop :=
  ∀ s t tree, cj.parse s = some tree → ∃ tree', cj.parse (s ++ t) = some tree' ∧
    cj.getObjectItem tree' (lit "cmd") = cj.getObjectItem tree (lit "cmd")

/-- The payload has a NUL, or the end of the value that cJSON reads in it. -/
def EndsWithin (cj : CJson) (p : List UInt8) : Prop :=
  0 ∈ p ∨ ∃ k ≤ p.length, (cj.parse (p.take k)).isSome

instance (cj : CJson) (p : List UInt8) : Decidable (EndsWithin cj p) :=
  inferInstanceAs (Decidable (_ ∨ ∃ k ≤ p.length, _))

/-- A text that is one value to cJSON and ends with it, and has a command of the
table under `cmd`. -/
structure CommandMessage (cj : CJson) (m : CStr) : Prop where
  plain : 0 ∉ m
  holds : ∃ tree item, cj.parse m = some tree ∧ cj.getObjectItem tree (lit "cmd") = some item ∧
    ∃ entry ∈ cmdtbl, strncmp entry (cj.print item) (cj.print item).length = 0
  ends : ∀ k < m.length, cj.parse (m.take k) = none

theorem recognised_iff_cmdCode (cj : CJson) (data : List UInt8) :
    Recognised cj data ↔ cmdCode cj data ≠ -1 := by
  constructor
  · intro known code
    have low := (cmdCode_of_recognised known).1
    omega
  · intro code
    by_contra unknown
    exact code (cmdCode_of_not_recognised unknown)

theorem recognised_iff_item (cj : CJson) (data : List UInt8) :
    Recognised cj data ↔ ∃ tree item, cj.parse (ofMem data) = some tree ∧
      cj.getObjectItem tree (lit "cmd") = some item ∧
      ∃ entry ∈ cmdtbl, strncmp entry (cj.print item) (cj.print item).length = 0 := by
  constructor
  · rintro ⟨text, found, known⟩
    obtain ⟨item, held, rfl⟩ := Option.map_eq_some_iff.mp found
    obtain ⟨tree, parsed, member⟩ := Option.bind_eq_some_iff.mp held
    exact ⟨tree, item, parsed, member, known⟩
  · rintro ⟨tree, item, parsed, member, known⟩
    exact ⟨cj.print item, by simp [cmdText, parsed, member], known⟩

/-- Behind the end of a value, the text under `cmd` no longer changes. -/
theorem cmdText_append {cj : CJson} (accepts : AcceptsTrailing cj) {p : List UInt8}
    (ends : EndsWithin cj p) (t : List UInt8) : cmdText cj (p ++ t) = cmdText cj p := by
  by_cases nul : 0 ∈ p
  · rw [cmdText, cmdText, ofMem_append, if_pos nul]
  · obtain ⟨k, -, read⟩ := ends.resolve_left nul
    obtain ⟨tree, parsed⟩ := Option.isSome_iff_exists.mp read
    -- whatever comes behind the value, the item is that of the value
    have item : ∀ u, (cj.parse (p.take k ++ u)).bind (fun t => cj.getObjectItem t (lit "cmd")) =
        cj.getObjectItem tree (lit "cmd") := by
      intro u
      obtain ⟨tree', again, same⟩ := accepts _ u tree parsed
      rw [again, Option.bind_some, same]
    have alone := item (p.drop k)
    have followed := item (p.drop k ++ ofMem t)
    rw [List.take_append_drop] at alone
    rw [← List.append_assoc, List.take_append_drop] at followed
    rw [cmdText, cmdText, ofMem_append, if_neg nul, ofMem_eq_self nul, followed, alone]

/-- A message recognised in what begins with a payload that does not end within
itself: cut behind its value, it is a command message. -/
theorem commandMessage_of_recognised {cj : CJson} (accepts : AcceptsTrailing cj)
    {p t : List UInt8} (open_ : ¬ EndsWithin cj p) (known : Recognised cj (p ++ t)) :
    ∃ m, CommandMessage cj m ∧ p <+: m := by
  have nul : 0 ∉ p := fun member => open_ (Or.inl member)
  obtain ⟨tree, item, parsed, member, entry⟩ := (recognised_iff_item cj (p ++ t)).mp known
  have whole : ∃ k, (cj.parse ((ofMem (p ++ t)).take k)).isSome :=
    ⟨(ofMem (p ++ t)).length, by rw [List.take_length, parsed]; rfl⟩
  -- the value ends where the shortest text that is parsed does
  have least := Nat.find_spec whole
  have earlier : ∀ k < Nat.find whole, cj.parse ((ofMem (p ++ t)).take k) = none := by
    intro k early
    simpa using Nat.find_min whole early
  generalize Nat.find whole = k at least earlier
  obtain ⟨value, read⟩ := Option.isSome_iff_exists.mp least
  obtain ⟨tree', again, same⟩ := accepts _ ((ofMem (p ++ t)).drop k) value read
  rw [List.take_append_drop, parsed] at again
  cases again
  have begins : p <+: ofMem (p ++ t) := by
    rw [ofMem_append, if_neg nul]
    exact List.prefix_append p _
  refine ⟨(ofMem (p ++ t)).take k, ⟨?_, ⟨value, item, read, same.symm.trans member, entry⟩, ?_⟩, ?_⟩
  · intro inside
    exact not_nul_mem_ofMem (p ++ t) (List.mem_of_mem_take inside)
  · intro j early
    rw [List.length_take] at early
    rw [List.take_take, Nat.min_eq_left (by omega)]
    exact earlier j (by omega)
  · -- the value does not end within the payload
    have behind : p.length ≤ k := by
      by_contra within
      refine open_ (Or.inr ⟨k, by omega, ?_⟩)
      have cut : (ofMem (p ++ t)).take k = p.take k := by
        obtain ⟨rest, split⟩ := begins
        rw [← split, List.take_append_of_le_length (by omega)]
      rw [← cut]
      exact least
    exact List.prefix_take_iff.mpr ⟨begins, behind⟩

/-- The payload alone decides the command unless it stops inside a command
message: it ends within itself, or begins none. -/
theorem jsonParse_payload_only_iff {cj : CJson} (accepts : AcceptsTrailing cj) (p : List UInt8)
    (w : World) :
    (∀ t t', (w.exec (jsonParse cj (p ++ t))).1 = (w.exec (jsonParse cj (p ++ t'))).1) ↔
      EndsWithin cj p ∨ ∀ m, CommandMessage cj m → ¬ p <+: m := by
  have code : ∀ data, (w.exec (jsonParse cj data)).1 = cmdCode cj data := by
    intro data
    rw [exec_jsonParse]
  simp only [code]
  constructor
  · intro same
    by_cases ends : EndsWithin cj p
    · exact Or.inl ends
    · refine Or.inr fun m message begins => ?_
      obtain ⟨t, rfl⟩ := begins
      -- with nothing behind it the payload is not even parsed
      have alone : cmdCode cj p = -1 := by
        apply cmdCode_of_not_recognised
        rw [recognised_iff_item]
        rintro ⟨tree, item, parsed, -, -⟩
        rw [ofMem_eq_self fun member => ends (Or.inl member)] at parsed
        exact ends (Or.inr ⟨p.length, Nat.le_refl _, by rw [List.take_length, parsed]; rfl⟩)
      have completed : Recognised cj (p ++ t) := by
        rw [recognised_iff_item, ofMem_eq_self message.plain]
        exact message.holds
      rw [recognised_iff_cmdCode, same t [], List.append_nil] at completed
      exact completed alone
  · rintro (ends | begins_none) t t'
    · rw [cmdCode, cmdCode, cmdText_append accepts ends t, cmdText_append accepts ends t']
    · by_cases ends : EndsWithin cj p
      · rw [cmdCode, cmdCode, cmdText_append accepts ends t, cmdText_append accepts ends t']
      · have never : ∀ t, ¬ Recognised cj (p ++ t) := by
          intro t known
          obtain ⟨m, message, begins⟩ := commandMessage_of_recognised accepts ends known
          exact begins_none m message begins
        rw [cmdCode_of_not_recognised (never t), cmdCode_of_not_recognised (never t')]

theorem memberParse_append {s : CStr} {value : CStr ⊕ CStr} (parsed : memberParse s = some value)
    (t : CStr) : memberParse (s ++ t) = some value := by
  rw [memberParse, Option.ite_none_right_eq_some] at parsed ⊢
  obtain ⟨⟨begins, closed⟩, text⟩ := parsed
  have rest : (s ++ t).drop 7 = s.drop 7 ++ t := List.drop_append_of_le_length begins.length_le
  have stops : ((s.drop 7).takeWhile (· ≠ 125)).length ≠ (s.drop 7).length := by
    intro all
    have whole := (List.takeWhile_sublist _).eq_of_length all
    have brace := List.takeWhile_eq_self_iff.mp whole 125 closed
    simp at brace
  refine ⟨⟨begins.trans (List.prefix_append s t), ?_⟩, ?_⟩
  · rw [rest]
    exact List.mem_append_left t closed
  · rw [rest, List.takeWhile_append, if_neg stops]
    exact text

/-- A `tup`, whose value ends with it, and half of one, which a message begins. -/
theorem jsonParse_payload_only_iff_tup :
    (∀ t t', ((World.boot 0).exec (jsonParse memberCJson (payload "tup" ++ t))).1 =
      ((World.boot 0).exec (jsonParse memberCJson (payload "tup" ++ t'))).1) ∧
    ¬ ∀ t t', ((World.boot 0).exec (jsonParse memberCJson ((payload "tup").take 9 ++ t))).1 =
      ((World.boot 0).exec (jsonParse memberCJson ((payload "tup").take 9 ++ t'))).1 := by
  have accepts : AcceptsTrailing memberCJson := fun _ t tree parsed =>
    ⟨tree, memberParse_append parsed t, rfl⟩
  constructor
  · refine (jsonParse_payload_only_iff accepts (payload "tup") (.boot 0)).mpr (Or.inl (Or.inr ?_))
    exact ⟨(payload "tup").length, Nat.le_refl _, rfl⟩
  · rw [jsonParse_payload_only_iff accepts]
    rintro (ends | begins_none)
    · revert ends
      decide
    · refine begins_none (payload "tup") ⟨by decide, ?_, by decide⟩ (by decide)
      exact ⟨.inl (lit "tup"), .inl (lit "tup"), rfl, rfl, by decide⟩

/-- A `tup` that lacks its closing brace, before a stray one and before a NUL. -/
theorem jsonParse_completes_payload :
    ¬ ∀ t t', ((World.boot 0).exec (jsonParse memberCJson ((payload "tup").dropLast ++ t))).1 =
      ((World.boot 0).exec (jsonParse memberCJson ((payload "tup").dropLast ++ t'))).1 := by
  intro same
  have differs := same (lit "\x7d") [0]
  revert differs
  decide

end IrCtl
