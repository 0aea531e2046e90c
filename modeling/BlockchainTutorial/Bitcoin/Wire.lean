import BlockchainTutorial.Bitcoin.Peer

namespace BlockchainTutorial.Bitcoin

/-! The requests of `server.go`: a command in twelve bytes, and a payload that is encoded by
`gob`. -/

def commandLength : Nat := 12

/-- The bytes of a text of ASCII characters. -/
def ascii (text : String) : Bytes :=
  text.toList.map fun c => UInt8.ofNat c.toNat

/-- The loop over the characters with their indexes. An index out of range is a panic. -/
def writeCommand : List Char → Nat → Bytes → Option Bytes
  | [], _, bytes => some bytes
  | c :: cs, i, bytes =>
      if i < bytes.length then
        writeCommand cs (i + c.utf8Size) (bytes.set i (UInt8.ofNat c.toNat))
      else none

def commandToBytes (command : String) : Option Bytes :=
  writeCommand command.toList 0 (List.replicate commandLength 0)

/-- Zeros are left out wherever they stand. -/
def bytesToCommand (bytes : Bytes) : Bytes :=
  bytes.filter (· ≠ 0)

def extractCommand (request : Bytes) : Bytes :=
  request.take commandLength

/-- What `gob` makes of the values of a type. -/
structure Codec (α : Type) where
  encode : α → Bytes
  decode : Bytes → Option α
  decode_encode : ∀ a, decode (encode a) = some a

namespace Wire

structure Addr where
  addrList : List Address

structure Block where
  addrFrom : Address
  block : Bytes

structure GetBlocks where
  addrFrom : Address

structure GetData where
  addrFrom : Address
  type : String
  id : Bytes

structure Inv where
  addrFrom : Address
  type : String
  items : List Bytes

structure Tx where
  addFrom : Address
  transaction : Bytes

structure Verzion where
  version : Int
  bestHeight : Int
  addrFrom : Address

end Wire

/-- The encodings of the payloads, and those of blocks and transactions in them. -/
structure Codecs where
  addr : Codec Wire.Addr
  block : Codec Wire.Block
  getblocks : Codec Wire.GetBlocks
  getdata : Codec Wire.GetData
  inv : Codec Wire.Inv
  tx : Codec Wire.Tx
  version : Codec Wire.Verzion
  storedBlock : Codec Block
  transaction : Codec Transaction

inductive Request where
  | addr (payload : Wire.Addr)
  | block (payload : Wire.Block)
  | getblocks (payload : Wire.GetBlocks)
  | getdata (payload : Wire.GetData)
  | inv (payload : Wire.Inv)
  | tx (payload : Wire.Tx)
  | version (payload : Wire.Verzion)

namespace Request

def command : Request → String
  | addr _ => "addr"
  | block _ => "block"
  | getblocks _ => "getblocks"
  | getdata _ => "getdata"
  | inv _ => "inv"
  | tx _ => "tx"
  | version _ => "version"

variable (codecs : Codecs)

def gobEncode : Request → Bytes
  | addr payload => codecs.addr.encode payload
  | block payload => codecs.block.encode payload
  | getblocks payload => codecs.getblocks.encode payload
  | getdata payload => codecs.getdata.encode payload
  | inv payload => codecs.inv.encode payload
  | tx payload => codecs.tx.encode payload
  | version payload => codecs.version.encode payload

/-- What the functions `send…` give to `sendData`. -/
def bytes (request : Request) : Option Bytes :=
  (commandToBytes request.command).map (· ++ request.gobEncode codecs)

/-- The switch of `handleConnection`, and the decoder at the start of each handler. `none` is
a panic, and `some none` a command that is not known. -/
def switch (command payload : Bytes) : Option (Option Request) :=
  if command = ascii "addr" then (codecs.addr.decode payload).map (some ∘ addr)
  else if command = ascii "block" then (codecs.block.decode payload).map (some ∘ block)
  else if command = ascii "inv" then (codecs.inv.decode payload).map (some ∘ inv)
  else if command = ascii "getblocks" then
    (codecs.getblocks.decode payload).map (some ∘ getblocks)
  else if command = ascii "getdata" then (codecs.getdata.decode payload).map (some ∘ getdata)
  else if command = ascii "tx" then (codecs.tx.decode payload).map (some ∘ tx)
  else if command = ascii "version" then (codecs.version.decode payload).map (some ∘ version)
  else some none

def read (request : Bytes) : Option (Option Request) :=
  if request.length < commandLength then none
  else switch codecs (bytesToCommand (extractCommand request)) (request.drop commandLength)

end Request

/-! A command that is written can be read again. -/

/-- The characters that take one byte which is not zero. -/
def Plain (c : Char) : Prop :=
  0 < c.toNat ∧ c.toNat < 128

instance (c : Char) : Decidable (Plain c) :=
  inferInstanceAs (Decidable (_ ∧ _))

theorem Plain.utf8Size {c : Char} (h : Plain c) : c.utf8Size = 1 := by
  have hle : c.val ≤ 0x7f := UInt32.le_iff_toNat_le.mpr (Nat.le_of_lt_succ h.2)
  exact if_pos hle

theorem Plain.ofNat_ne_zero {c : Char} (h : Plain c) : UInt8.ofNat c.toNat ≠ 0 := by
  intro hzero
  have htoNat : (UInt8.ofNat c.toNat).toNat = c.toNat := by
    rw [UInt8.toNat_ofNat']
    exact Nat.mod_eq_of_lt (Nat.lt_trans h.2 (by decide))
  rw [hzero] at htoNat
  exact absurd htoNat h.1.ne

theorem writeCommand_eq {cs : List Char} (hplain : ∀ c ∈ cs, Plain c) (written : Bytes)
    {left : Nat} (hlength : cs.length ≤ left) :
    writeCommand cs written.length (written ++ List.replicate left 0) =
      some (written ++ (cs.map fun c => UInt8.ofNat c.toNat) ++
        List.replicate (left - cs.length) 0) := by
  induction cs generalizing written left with
  | nil => simp [writeCommand]
  | cons c cs ih =>
      obtain ⟨left, rfl⟩ : ∃ rest, left = rest + 1 :=
        ⟨left - 1, by simp only [List.length_cons] at hlength; omega⟩
      have hset : (written ++ List.replicate (left + 1) 0).set written.length
          (UInt8.ofNat c.toNat) = written ++ [UInt8.ofNat c.toNat] ++ List.replicate left 0 := by
        rw [List.replicate_succ, List.set_append_right _ _ (Nat.le_refl _), Nat.sub_self,
          List.set_cons_zero, List.append_assoc, List.singleton_append]
      rw [writeCommand, if_pos (by simp), hset,
        (hplain c List.mem_cons_self).utf8Size]
      have hnext := ih (fun other hother => hplain other (List.mem_cons_of_mem _ hother))
        (written ++ [UInt8.ofNat c.toNat]) (Nat.le_of_succ_le_succ hlength)
      rw [List.length_append, List.length_singleton] at hnext
      rw [hnext]
      simp

theorem commandToBytes_eq {command : String} (hplain : ∀ c ∈ command.toList, Plain c)
    (hlength : command.toList.length ≤ commandLength) :
    commandToBytes command =
      some (ascii command ++ List.replicate (commandLength - command.toList.length) 0) := by
  have hwritten := writeCommand_eq hplain [] hlength
  rwa [List.nil_append, List.nil_append] at hwritten

theorem bytesToCommand_append_zeros {command : String} (hplain : ∀ c ∈ command.toList, Plain c)
    (zeros : Nat) : bytesToCommand (ascii command ++ List.replicate zeros 0) = ascii command := by
  have hzeros : (List.replicate zeros (0 : UInt8)).filter (· ≠ 0) = [] :=
    List.filter_eq_nil_iff.mpr fun byte hbyte => by simp [List.eq_of_mem_replicate hbyte]
  have hcommand : (ascii command).filter (· ≠ 0) = ascii command := by
    refine List.filter_eq_self.mpr fun byte hbyte => ?_
    obtain ⟨c, hc, rfl⟩ := List.mem_map.mp hbyte
    exact decide_eq_true (hplain c hc).ofNat_ne_zero
  rw [bytesToCommand, List.filter_append, hcommand, hzeros, List.append_nil]

namespace Request

def commands : List String :=
  ["addr", "block", "getblocks", "getdata", "inv", "tx", "version"]

theorem command_mem (request : Request) : request.command ∈ commands := by
  cases request <;> simp [command, commands]

theorem command_plain (request : Request) : ∀ c ∈ request.command.toList, Plain c := by
  have hall : (commands.all fun command => command.toList.all fun c => decide (Plain c)) := by
    decide
  intro c hc
  have hrequest := List.all_eq_true.mp hall _ request.command_mem
  exact of_decide_eq_true (List.all_eq_true.mp hrequest c hc)

theorem command_length (request : Request) :
    request.command.toList.length ≤ commandLength := by
  have hall : ∀ command ∈ commands, command.toList.length ≤ commandLength := by decide
  exact hall _ request.command_mem

/-- The header of a request. -/
def header (request : Request) : Bytes :=
  ascii request.command ++ List.replicate (commandLength - request.command.toList.length) 0

theorem length_header (request : Request) : request.header.length = commandLength := by
  have hlength := request.command_length
  simp only [header, ascii, List.length_append, List.length_map, List.length_replicate]
  omega

theorem bytes_eq (codecs : Codecs) (request : Request) :
    request.bytes codecs = some (request.header ++ request.gobEncode codecs) := by
  rw [bytes, commandToBytes_eq request.command_plain request.command_length, Option.map_some]
  rfl

theorem switch_gobEncode (codecs : Codecs) (request : Request) :
    switch codecs (ascii request.command) (request.gobEncode codecs) = some (some request) := by
  cases request with
  | addr payload =>
      change switch codecs (ascii "addr") (codecs.addr.encode payload) = _
      rw [switch, if_pos rfl, codecs.addr.decode_encode]
      rfl
  | block payload =>
      change switch codecs (ascii "block") (codecs.block.encode payload) = _
      rw [switch, if_neg (by decide), if_pos rfl, codecs.block.decode_encode]
      rfl
  | getblocks payload =>
      change switch codecs (ascii "getblocks") (codecs.getblocks.encode payload) = _
      rw [switch, if_neg (by decide), if_neg (by decide), if_neg (by decide), if_pos rfl,
        codecs.getblocks.decode_encode]
      rfl
  | getdata payload =>
      change switch codecs (ascii "getdata") (codecs.getdata.encode payload) = _
      rw [switch, if_neg (by decide), if_neg (by decide), if_neg (by decide), if_neg (by decide),
        if_pos rfl, codecs.getdata.decode_encode]
      rfl
  | inv payload =>
      change switch codecs (ascii "inv") (codecs.inv.encode payload) = _
      rw [switch, if_neg (by decide), if_neg (by decide), if_pos rfl, codecs.inv.decode_encode]
      rfl
  | tx payload =>
      change switch codecs (ascii "tx") (codecs.tx.encode payload) = _
      rw [switch, if_neg (by decide), if_neg (by decide), if_neg (by decide), if_neg (by decide),
        if_neg (by decide), if_pos rfl, codecs.tx.decode_encode]
      rfl
  | version payload =>
      change switch codecs (ascii "version") (codecs.version.encode payload) = _
      rw [switch, if_neg (by decide), if_neg (by decide), if_neg (by decide), if_neg (by decide),
        if_neg (by decide), if_neg (by decide), if_pos rfl, codecs.version.decode_encode]
      rfl

/-- A request that is sent is read as what it is. -/
theorem read_bytes {codecs : Codecs} {request : Request} {sent : Bytes}
    (h : request.bytes codecs = some sent) : read codecs sent = some (some request) := by
  rw [bytes_eq, Option.some.injEq] at h
  subst h
  have hlength : ¬ (request.header ++ request.gobEncode codecs).length < commandLength := by
    rw [List.length_append, length_header]
    omega
  have hcommand : bytesToCommand (extractCommand (request.header ++ request.gobEncode codecs)) =
      ascii request.command := by
    rw [extractCommand, List.take_left' request.length_header, header,
      bytesToCommand_append_zeros request.command_plain]
  rw [read, if_neg hlength, hcommand, List.drop_left' request.length_header, switch_gobEncode]

end Request

end BlockchainTutorial.Bitcoin
