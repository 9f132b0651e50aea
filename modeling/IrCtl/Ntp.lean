import Mathlib.Data.Fin.VecNotation
import Mathlib.Data.List.OfFn
import IrCtl.Gree.Frame

/-!
# Asking for the time

`time_stamp`: four servers are asked in turn over one socket, and one packet
serves as the request and as the buffer of every reply.
-/

namespace IrCtl

/-- The 48 bytes of an `ntp_packet`. -/
abbrev NtpPacket := Vector U8 48

def ntpRequest : NtpPacket := (Vector.replicate 48 0).set 0 0x1b

/-- What `read` does: it fails with -1, or puts bytes at the start of the packet. -/
inductive Received where
  | failed
  | bytes (data : List U8) (fits : data.length ≤ 48)

/-- What the calls return that ask one server. -/
structure Server where
  -- whether `gethostbyname` finds the host
  found : Bool
  connect : Int
  write : Int
  read : Received

/-- What the network answers to one call of `time_stamp`. -/
structure Net where
  sockfd : Int
  servers : Fin 4 → Server

/-- `n < sizeof( ntp_packet )`: the comparison is one of unsigned values. -/
def lessThanPacket (n : Int) : Bool := (BitVec.ofInt 32 n).toNat < 48

def NtpPacket.receive (packet : NtpPacket) (data : List U8) : NtpPacket :=
  Vector.ofFn fun i => (data[i.val]?).getD packet[i]

def Received.into (packet : NtpPacket) : Received → NtpPacket
  | .failed => packet
  | .bytes data _ => packet.receive data

/-- The packet, and the packets handed to `write` so far. -/
structure Asking where
  packet : NtpPacket
  written : List NtpPacket

/-- The body of the loop. -/
def askServer (a : Asking) (server : Server) : Asking :=
  if !server.found then a
  else if server.connect < 0 then a
  else
    let a := { a with written := a.written ++ [a.packet] }
    -- -1 is not less than the size
    if lessThanPacket server.write then a
    else
      -- however much has been read, the loop goes on to the next server
      { a with packet := server.read.into a.packet }

def ntohl (netlong : BitVec 32) : BitVec 32 :=
  netlong.extractLsb' 0 8 ++ netlong.extractLsb' 8 8 ++ netlong.extractLsb' 16 8 ++
    netlong.extractLsb' 24 8

/-- `packet.txTm_s` as a little-endian machine loads it. -/
def NtpPacket.txTmS (packet : NtpPacket) : BitVec 32 :=
  packet[43] ++ packet[42] ++ packet[41] ++ packet[40]

def ntpTimestampDelta : BitVec 64 := 2208988800

def beijingTimeDelta : BitVec 64 := 8 * 60 * 60

/-- The time in the packet, for the zone of the device. -/
def txTm (packet : NtpPacket) : Int :=
  ((ntohl packet.txTmS).setWidth 64 - ntpTimestampDelta + beijingTimeDelta).toInt

def askServers (net : Net) : Asking := (List.ofFn net.servers).foldl askServer ⟨ntpRequest, []⟩

/-- `time_stamp`; without a socket it ends in `exit`. -/
def timeStamp (net : Net) : Option Int :=
  if net.sockfd < 0 then none else some (txTm (askServers net).packet)

/-! ### The bytes the loop leaves -/

/-- What has been read from a server, if anything. -/
def delivered (server : Server) : List U8 :=
  if !server.found || server.connect < 0 || lessThanPacket server.write then []
  else match server.read with
    | .failed => []
    | .bytes data _ => data

theorem receive_nil (packet : NtpPacket) : packet.receive [] = packet := by
  apply Vector.ext
  intro i bound
  simp [NtpPacket.receive]

theorem receive_getElem (packet : NtpPacket) (data : List U8) {i : Nat} (bound : i < 48) :
    (packet.receive data)[i] = (data[i]?).getD packet[i] := by
  simp [NtpPacket.receive]

theorem askServer_packet (a : Asking) (server : Server) :
    (askServer a server).packet = a.packet.receive (delivered server) := by
  unfold askServer delivered
  by_cases found : server.found
  · by_cases refused : server.connect < 0
    · simp [found, refused, receive_nil]
    · by_cases short : lessThanPacket server.write
      · simp [found, refused, short, receive_nil]
      · cases read : server.read with
        | failed => simp [found, refused, short, Received.into, receive_nil]
        | bytes data fits => simp [found, refused, short, Received.into]
  · simp [found, receive_nil]

/-- The byte at `i` of the last read that reached so far. -/
def lastByte (servers : List Server) (i : Nat) : Option U8 :=
  servers.reverse.findSome? fun server => (delivered server)[i]?

theorem lastByte_append (servers : List Server) (server : Server) (i : Nat) :
    lastByte (servers ++ [server]) i = ((delivered server)[i]?).or (lastByte servers i) := by
  simp only [lastByte, List.reverse_append, List.reverse_singleton, List.singleton_append,
    List.findSome?_cons]
  cases (delivered server)[i]? <;> rfl

/-- Each byte of the packet is the one read last, or that of the request. -/
theorem askServers_packet (servers : List Server) {i : Nat} (bound : i < 48) :
    (servers.foldl askServer ⟨ntpRequest, []⟩).packet[i] =
      (lastByte servers i).getD ntpRequest[i] := by
  induction servers using List.reverseRecOn with
  | nil => rfl
  | append_singleton servers server ih =>
    rw [List.foldl_append, List.foldl_cons, List.foldl_nil, lastByte_append]
    simp only [askServer_packet, receive_getElem _ _ bound, ih]
    cases (delivered server)[i]? <;> rfl

/-! ### The time in a packet -/

/-- The field is big-endian. -/
theorem ntohl_append (a b c d : U8) : ntohl (d ++ c ++ b ++ a) = a ++ b ++ c ++ d := by
  have byte0 : (d ++ c ++ b ++ a).extractLsb' 0 8 = a := BitVec.extractLsb'_append_eq_right
  have byte1 : (d ++ c ++ b ++ a).extractLsb' 8 8 = b := by
    rw [BitVec.extractLsb'_append_eq_of_le (by decide)]
    exact BitVec.extractLsb'_append_eq_right
  have byte2 : (d ++ c ++ b ++ a).extractLsb' 16 8 = c := by
    rw [BitVec.extractLsb'_append_eq_of_le (by decide), BitVec.extractLsb'_append_eq_of_le (by decide)]
    exact BitVec.extractLsb'_append_eq_right
  have byte3 : (d ++ c ++ b ++ a).extractLsb' 24 8 = d := by
    rw [BitVec.extractLsb'_append_eq_of_le (by decide), BitVec.extractLsb'_append_eq_of_le (by decide)]
    exact BitVec.extractLsb'_append_eq_left
  rw [ntohl, byte0, byte1, byte2, byte3]

/-- Seconds since 1900, moved to 1970 and eight hours east. -/
def ntpSeconds (b40 b41 b42 b43 : U8) : Int :=
  (b40 ++ b41 ++ b42 ++ b43 : BitVec 32).toNat - 2208988800 + 28800

theorem txTm_eq (packet : NtpPacket) :
    txTm packet = ntpSeconds packet[40] packet[41] packet[42] packet[43] := by
  rw [txTm, NtpPacket.txTmS, ntohl_append, ntpSeconds]
  generalize packet[40] ++ packet[41] ++ packet[42] ++ packet[43] = w
  have low : w.toNat < 2 ^ 32 := w.isLt
  have wide : (w.setWidth 64).toNat = w.toNat := by
    rw [BitVec.toNat_setWidth, Nat.mod_eq_of_lt (by omega)]
  -- the difference may wrap below zero, which the cast to a signed type undoes
  have sum : (w.setWidth 64 - ntpTimestampDelta + beijingTimeDelta).toNat =
      (w.toNat + (2 ^ 64 - 2208960000)) % 2 ^ 64 := by
    have delta : ntpTimestampDelta.toNat = 2208988800 := rfl
    have zone : beijingTimeDelta.toNat = 28800 := rfl
    rw [BitVec.toNat_add, BitVec.toNat_sub, wide, delta, zone]
    omega
  rw [BitVec.toInt_eq_toNat_cond, sum]
  split <;> omega

private theorem append_inj_iff {n m : Nat} {a a' : BitVec n} {b b' : BitVec m} :
    a ++ b = a' ++ b' ↔ a = a' ∧ b = b' := by
  constructor
  · intro same
    have high := congrArg (BitVec.extractLsb' m n) same
    have low := congrArg (BitVec.extractLsb' 0 m) same
    rw [BitVec.extractLsb'_append_eq_left, BitVec.extractLsb'_append_eq_left] at high
    rw [BitVec.extractLsb'_append_eq_right, BitVec.extractLsb'_append_eq_right] at low
    exact ⟨high, low⟩
  · rintro ⟨rfl, rfl⟩
    rfl

/-- Different fields are different times. -/
theorem ntpSeconds_inj {a b c d a' b' c' d' : U8} :
    ntpSeconds a b c d = ntpSeconds a' b' c' d' ↔ a = a' ∧ b = b' ∧ c = c' ∧ d = d' := by
  have words : ntpSeconds a b c d = ntpSeconds a' b' c' d' ↔
      (a ++ b ++ c ++ d : BitVec 32) = a' ++ b' ++ c' ++ d' := by
    rw [BitVec.toNat_eq, ntpSeconds, ntpSeconds]
    omega
  rw [words, append_inj_iff, append_inj_iff, append_inj_iff, and_assoc, and_assoc]

/-! ### Complete replies -/

/-- Some server has delivered the whole of `reply`. -/
def Replies (servers : List Server) (reply : NtpPacket) : Prop :=
  ∃ server ∈ servers, delivered server = reply.toList

/-- The byte at `i` of the field, as the reads have left it: zero where none has
reached. -/
def fieldByte (servers : List Server) (i : Nat) : U8 := (lastByte servers i).getD 0

/-- The value stored at a sync is the time of some complete reply; without one
it is the time kept. -/
def SyncSound (servers : List Server) (kept stored : Int) : Prop :=
  (∃ reply, Replies servers reply ∧ stored = txTm reply) ∨
    (∀ reply, ¬ Replies servers reply) ∧ stored = kept

/-- Each byte of the field was read last with the value it has in one complete
reply; without one, the bytes read happen to give the time kept. -/
def FieldIntact (servers : List Server) (kept : Int) : Prop :=
  (∃ reply, Replies servers reply ∧
    ∀ i (bound : i < 48), 40 ≤ i → i < 44 → lastByte servers i = some reply[i]) ∨
  (∀ reply, ¬ Replies servers reply) ∧
    kept = ntpSeconds (fieldByte servers 40) (fieldByte servers 41) (fieldByte servers 42)
      (fieldByte servers 43)

theorem lastByte_isSome {servers : List Server} {reply : NtpPacket} (replies : Replies servers reply)
    {i : Nat} (bound : i < 48) : (lastByte servers i).isSome := by
  obtain ⟨server, member, whole⟩ := replies
  rw [lastByte, List.findSome?_isSome_iff]
  refine ⟨server, List.mem_reverse.mpr member, ?_⟩
  rw [whole, List.getElem?_eq_getElem (by simpa using bound)]
  rfl

/-- The time returned is that of the bytes read last. -/
theorem txTm_askServers (net : Net) :
    txTm (askServers net).packet =
      ntpSeconds (fieldByte (List.ofFn net.servers) 40) (fieldByte (List.ofFn net.servers) 41)
        (fieldByte (List.ofFn net.servers) 42) (fieldByte (List.ofFn net.servers) 43) := by
  rw [txTm_eq, askServers, askServers_packet, askServers_packet, askServers_packet,
    askServers_packet]
  rfl

theorem timeStamp_syncSound_iff_fieldIntact {net : Net} {kept stored : Int}
    (returned : timeStamp net = some stored) :
    SyncSound (List.ofFn net.servers) kept stored ↔ FieldIntact (List.ofFn net.servers) kept := by
  rw [timeStamp, Option.ite_none_left_eq_some] at returned
  obtain ⟨-, value⟩ := returned
  have stored_eq := (Option.some.inj value).symm.trans (txTm_askServers net)
  generalize List.ofFn net.servers = servers at *
  refine or_congr (exists_congr fun reply => and_congr_right fun replies => ?_)
    (and_congr_right fun _ => by rw [stored_eq, eq_comm])
  have read : ∀ i (bound : i < 48),
      (fieldByte servers i = reply[i] ↔ lastByte servers i = some reply[i]) := by
    intro i bound
    obtain ⟨b, last⟩ := Option.isSome_iff_exists.mp (lastByte_isSome replies bound)
    rw [fieldByte, last, Option.getD_some, Option.some.injEq]
  rw [stored_eq, txTm_eq, ntpSeconds_inj, read 40 (by decide), read 41 (by decide),
    read 42 (by decide), read 43 (by decide)]
  constructor
  · rintro ⟨b40, b41, b42, b43⟩ i bound low high
    obtain rfl | rfl | rfl | rfl : i = 40 ∨ i = 41 ∨ i = 42 ∨ i = 43 := by omega
    · exact b40
    · exact b41
    · exact b42
    · exact b43
  · intro all
    exact ⟨all 40 (by decide) (by decide) (by decide), all 41 (by decide) (by decide) (by decide),
      all 42 (by decide) (by decide) (by decide), all 43 (by decide) (by decide) (by decide)⟩

/-! ### The packets sent -/

/-- The packets one call of `time_stamp` hands to `write`. -/
def sentPackets (net : Net) : List NtpPacket :=
  if net.sockfd < 0 then [] else (askServers net).written

/-- A client request: leap 0, version 3, mode 3, and all else zero. -/
def ClientRequest (packet : NtpPacket) : Prop :=
  packet[0] = 0x1b ∧ ∀ i (bound : i < 48), 0 < i → packet[i] = 0

/-- The host is found and connected to, so the packet is written. -/
def Server.Reached (server : Server) : Prop := server.found = true ∧ 0 ≤ server.connect

/-- Whatever has been read from the server repeats the beginning of the request. -/
def Server.Echoes (server : Server) : Prop := delivered server <+: ntpRequest.toList

theorem clientRequest_iff (packet : NtpPacket) : ClientRequest packet ↔ packet = ntpRequest := by
  have first : ntpRequest[0] = 0x1b := rfl
  have rest : ∀ i (bound : i < 48), 0 < i → ntpRequest[i] = 0 := by
    intro i bound positive
    have other : 0 ≠ i := by omega
    simp [ntpRequest, Vector.getElem_set_ne, other]
  constructor
  · rintro ⟨same, zeroes⟩
    apply Vector.ext
    intro i bound
    by_cases start : i = 0
    · subst start
      rw [same, first]
    · rw [zeroes i bound (by omega), rest i bound (by omega)]
  · rintro rfl
    exact ⟨first, rest⟩

theorem delivered_length (server : Server) : (delivered server).length ≤ 48 := by
  simp only [delivered]
  split
  · exact Nat.zero_le 48
  · split
    · exact Nat.zero_le 48
    · assumption

/-- Data received leaves the packet as it is only where it repeats it. -/
theorem receive_eq_self_iff {packet : NtpPacket} {data : List U8} (fits : data.length ≤ 48) :
    packet.receive data = packet ↔ data <+: packet.toList := by
  rw [List.prefix_iff_getElem]
  constructor
  · intro same
    refine ⟨by simpa using fits, fun i inside => ?_⟩
    have byte := receive_getElem packet data (by omega : i < 48)
    rw [List.getElem?_eq_getElem inside, Option.getD_some] at byte
    rw [Vector.getElem_toList, ← byte]
    simp only [same]
  · rintro ⟨short, agrees⟩
    apply Vector.ext
    intro i bound
    rw [receive_getElem packet data bound]
    by_cases inside : i < data.length
    · rw [List.getElem?_eq_getElem inside, agrees i inside]
      rfl
    · rw [List.getElem?_eq_none (by omega)]
      rfl

theorem askServer_unreached {server : Server} (away : ¬ server.Reached) (a : Asking) :
    askServer a server = a := by
  rw [Server.Reached, not_and_or, Bool.not_eq_true, Int.not_le] at away
  rcases away with unknown | refused
  · simp [askServer, unknown]
  · simp [askServer, refused]

theorem askServer_written {server : Server} (reached : server.Reached) (a : Asking) :
    (askServer a server).written = a.written ++ [a.packet] := by
  obtain ⟨found, connected⟩ := reached
  have accepted : ¬ server.connect < 0 := by omega
  by_cases short : lessThanPacket server.write
  · simp [askServer, found, accepted, short]
  · simp [askServer, found, accepted, short]

/-- All packets written so far are requests. -/
def Asking.Requests (a : Asking) : Prop := ∀ packet ∈ a.written, packet = ntpRequest

theorem written_isPrefix (servers : List Server) (a : Asking) :
    a.written <+: (servers.foldl askServer a).written := by
  induction servers generalizing a with
  | nil => exact List.prefix_refl _
  | cons server servers ih =>
    refine List.IsPrefix.trans ?_ (ih (askServer a server))
    by_cases reached : server.Reached
    · rw [askServer_written reached]
      exact List.prefix_append _ _
    · rw [askServer_unreached reached]

/-- With anything else in the packet, no server may be reached any more. -/
theorem requests_of_spoilt {a : Asking} (spoilt : a.packet ≠ ntpRequest) (servers : List Server) :
    (servers.foldl askServer a).Requests ↔ a.Requests ∧ ∀ server ∈ servers, ¬ server.Reached := by
  induction servers with
  | nil => simp
  | cons server servers ih =>
    rw [List.foldl_cons, List.forall_mem_cons]
    by_cases reached : server.Reached
    · have sent : a.packet ∈ (servers.foldl askServer (askServer a server)).written := by
        apply (written_isPrefix servers (askServer a server)).subset
        rw [askServer_written reached]
        exact List.mem_append_right _ List.mem_cons_self
      constructor
      · intro requests
        exact absurd (requests a.packet sent) spoilt
      · rintro ⟨-, away, -⟩
        exact absurd reached away
    · rw [askServer_unreached reached, ih]
      simp [reached]

/-- From the request on, all packets written are requests exactly where every
server before one that is reached has echoed the request. -/
theorem requests_iff_pairwise {a : Asking} (fresh : a.packet = ntpRequest) (servers : List Server) :
    (servers.foldl askServer a).Requests ↔
      a.Requests ∧ servers.Pairwise fun earlier later => later.Reached → earlier.Echoes := by
  induction servers generalizing a with
  | nil => simp
  | cons server servers ih =>
    have written : (askServer a server).Requests ↔ a.Requests := by
      by_cases reached : server.Reached
      · rw [Asking.Requests, Asking.Requests, askServer_written reached, List.forall_mem_append,
          List.forall_mem_singleton]
        exact and_iff_left fresh
      · rw [askServer_unreached reached]
    have left : (askServer a server).packet = ntpRequest ↔ server.Echoes := by
      rw [askServer_packet, fresh]
      exact receive_eq_self_iff (delivered_length server)
    rw [List.foldl_cons, List.pairwise_cons]
    by_cases echoes : server.Echoes
    · rw [ih (left.mpr echoes), written]
      simp [echoes]
    · rw [requests_of_spoilt (mt left.mp echoes), written]
      refine and_congr_right fun _ => ?_
      constructor
      · intro away
        refine ⟨fun later member reached => absurd reached (away later member), ?_⟩
        exact List.pairwise_of_forall_mem_list fun _ _ later member reached =>
          absurd reached (away later member)
      · rintro ⟨before, -⟩ later member reached
        exact echoes (before later member reached)

/-- Every packet sent is a client request exactly where, before a server is
reached, none has been read from that does not repeat the request. -/
theorem sentPackets_clientRequest_iff (net : Net) :
    (∀ packet ∈ sentPackets net, ClientRequest packet) ↔
      net.sockfd < 0 ∨ ∀ i j, i < j → (net.servers j).Reached → (net.servers i).Echoes := by
  simp only [clientRequest_iff, sentPackets]
  by_cases closed : net.sockfd < 0
  · simp [closed]
  · simp only [closed, if_false, false_or]
    have fresh : (Asking.mk ntpRequest []).packet = ntpRequest := rfl
    have all := requests_iff_pairwise fresh (List.ofFn net.servers)
    rw [List.pairwise_ofFn] at all
    refine all.trans ?_
    simp [Asking.Requests]

/-- The first server answers as a server does, the others are then sent its answer. -/
def answeringNet : Net where
  sockfd := 3
  servers i :=
    if i = 0 then ⟨true, 0, 48, .bytes (0x1c :: List.replicate 47 1) (by decide)⟩
    else ⟨true, 0, 48, .failed⟩

theorem sentPackets_sends_reply : ¬ ∀ packet ∈ sentPackets answeringNet, ClientRequest packet := by
  intro requests
  have sent : ntpRequest.receive (0x1c :: List.replicate 47 1) ∈ sentPackets answeringNet := by
    decide
  exact absurd (requests _ sent).1 (by decide)

/-! ### Telling the time -/

/-- The four bytes in which a server answers that `time` seconds have passed
since 1970: the seconds since 1900, as far as they fit. -/
def ntpField (time : Int) : List U8 :=
  let seconds := BitVec.ofInt 32 (time + 2208988800)
  [seconds.extractLsb' 24 8, seconds.extractLsb' 16 8, seconds.extractLsb' 8 8,
    seconds.extractLsb' 0 8]

/-- The field starts again in 2036, and every 136 years from there on. -/
def ntpEra (time : Int) : Int := (time + 2208988800) / 2 ^ 32

theorem ntpSeconds_field (time : Int) :
    ntpSeconds ((BitVec.ofInt 32 (time + 2208988800)).extractLsb' 24 8)
        ((BitVec.ofInt 32 (time + 2208988800)).extractLsb' 16 8)
        ((BitVec.ofInt 32 (time + 2208988800)).extractLsb' 8 8)
        ((BitVec.ofInt 32 (time + 2208988800)).extractLsb' 0 8) =
      time + 28800 - 2 ^ 32 * ntpEra time := by
  have whole : ∀ w : BitVec 32, (w.extractLsb' 24 8 ++ w.extractLsb' 16 8 ++ w.extractLsb' 8 8 ++
      w.extractLsb' 0 8 : BitVec 32) = w := by
    intro w
    apply BitVec.eq_of_getLsbD_eq
    intro i bound
    simp only [BitVec.getLsbD_append, BitVec.getLsbD_extractLsb']
    grind
  -- the field holds the seconds modulo its era
  have value : ((BitVec.ofInt 32 (time + 2208988800)).toNat : Int) =
      (time + 2208988800) % 2 ^ 32 := by
    rw [BitVec.toNat_ofInt]
    omega
  rw [ntpSeconds, whole, value, ntpEra]
  omega

/-- A byte is as a server has answered it if none has reached it since. -/
theorem lastByte_of_last {servers : List Server} {k m : Nat} {server : Server} {byte : U8}
    (there : servers[m]? = some server) (here : (delivered server)[k]? = some byte)
    (later : ∀ j s, m < j → servers[j]? = some s → (delivered s)[k]? = none) :
    lastByte servers k = some byte := by
  induction servers using List.reverseRecOn with
  | nil => cases there
  | append_singleton servers last ih =>
    have end_ : (servers ++ [last])[servers.length]? = some last := List.getElem?_concat_length
    rw [lastByte_append]
    rcases Nat.lt_trichotomy m servers.length with earlier | rfl | outside
    · -- the last server has not reached it
      rw [later servers.length last earlier end_, Option.none_or]
      rw [List.getElem?_append_left earlier] at there
      refine ih there fun j s behind met => later j s behind ?_
      rw [List.getElem?_append_left (List.getElem?_eq_some_iff.mp met).1, met]
    · rw [end_] at there
      cases there
      rw [here, Option.some_or]
    · have inside := (List.getElem?_eq_some_iff.mp there).1
      rw [List.length_append, List.length_singleton] at inside
      omega

/-- The server reached last with the field tells the time, whatever the others
have left in the packet: eight hours east, and short of the eras gone by. -/
theorem timeStamp_told {net : Net} {i : Fin 4} {time : Int} (socket : 0 ≤ net.sockfd)
    (told : ((delivered (net.servers i)).drop 40).take 4 = ntpField time)
    (last : ∀ j, i < j → (delivered (net.servers j)).length ≤ 40) :
    timeStamp net = some (time + 28800 - 2 ^ 32 * ntpEra time) := by
  have byte : ∀ k : Nat, k < 4 →
      lastByte (List.ofFn net.servers) (40 + k) = (ntpField time)[k]? := by
    intro k bound
    have here : (delivered (net.servers i))[40 + k]? = (ntpField time)[k]? := by
      rw [← told, List.getElem?_take, if_pos bound, List.getElem?_drop]
    -- the field is complete, so the byte is there
    obtain ⟨b, known⟩ : ∃ b, (ntpField time)[k]? = some b :=
      ⟨_, List.getElem?_eq_getElem (by simpa [ntpField] using bound)⟩
    have there : (List.ofFn net.servers)[i.val]? = some (net.servers i) := by
      rw [List.getElem?_ofFn, dif_pos i.isLt]
    rw [known] at here ⊢
    apply lastByte_of_last there here
    intro j s later met
    rw [List.getElem?_ofFn, Option.dite_none_right_eq_some] at met
    obtain ⟨inside, same⟩ := met
    cases same
    have short := last ⟨j, inside⟩ later
    exact List.getElem?_eq_none (by omega)
  rw [timeStamp, if_neg (by omega), txTm_askServers, fieldByte, fieldByte, fieldByte, fieldByte,
    byte 0 (by decide), byte 1 (by decide), byte 2 (by decide), byte 3 (by decide)]
  exact congrArg some (ntpSeconds_field time)

theorem field_fits (time : Int) : (List.replicate 40 (0 : U8) ++ ntpField time).length ≤ 48 := by
  simp [ntpField]

/-- The first server leaves the packet full, the second tells the time; then one
read ends before the field, and the last fails. -/
def leftoverNet (time : Int) : Net where
  sockfd := 3
  servers := ![
    ⟨true, 0, 48, .bytes (0x1c :: List.replicate 47 1) (by decide)⟩,
    ⟨true, 0, 48, .bytes (List.replicate 40 0 ++ ntpField time) (field_fits time)⟩,
    ⟨true, 0, 48, .bytes (List.replicate 40 7) (by decide)⟩,
    ⟨true, 0, 48, .failed⟩]

/-- A time of the second era. -/
theorem timeStamp_told_leftover :
    timeStamp (leftoverNet 4000000000) = some (4000000000 + 28800 - 2 ^ 32 * 1) := by
  have last : ∀ j : Fin 4, 1 < j → (delivered ((leftoverNet 4000000000).servers j)).length ≤ 40 := by
    decide
  exact timeStamp_told (i := 1) (by decide) rfl last

end IrCtl
