import Hyprwire.Cpp.Guarded
import Hyprwire.Wire.ControlProgress
import Hyprwire.Wire.Token

/-!
# Control messages are read as they are written

A control decoder that accepts has looked at every byte it has gone past: the fixed bytes
are compared, the integers and strings are copied, and the end of a message is looked for
where its parts end. `Spells` says that the accepted bytes are some bytes, and each decoder
has a theorem `spells` that these are what the sending constructor makes of the fields that
were read. A length prefix is the one thing that can be spelled in several ways, so that
the prefixes are assumed to be shortest numerals (`Minimal`, at the places `PrefixPlace`).
`accepted_encoded` has all decoders together.
-/

set_option autoImplicit false

namespace Hyprwire.Wire

open Cpp Base128

/-! ## The bytes that were read -/

section Read

variable {data : View} {i : Nat}

/-- A byte that was looked at lies in the view. -/
theorem holds_of_checkedAt {byte : UInt8} (small : data.size < 2 ^ 63)
    (read : data.checkedAt i = .ok byte) : data.Holds i [byte] := by
  have inside := lt_of_checkedAt read
  rw [View.checkedAt, if_pos inside] at read
  refine View.holds_cons.mpr ⟨?_, View.holds_nil _ _⟩
  rw [wrap_of_lt (by omega)]
  split at read
  · next found =>
    cases read
    exact found
  · cases read

/-- A block that was read has the length that was asked for. -/
theorem length_of_rawBlock {n : Nat} {bytes : List UInt8}
    (read : data.rawBlock i n = .ok bytes) : bytes.length = n := by
  induction n generalizing i bytes with
  | zero =>
      cases read
      rfl
  | succ n ih =>
      obtain ⟨byte, -, rest⟩ := bind_eq_ok.mp read
      obtain ⟨bytes, more, same⟩ := bind_eq_ok.mp rest
      cases same
      rw [List.length_cons, ih more]

/-- The bytes of an integer that was read lie in the view. -/
theorem holds_of_u32At {value : UInt32} (read : data.u32At i = .ok value) :
    data.Holds i (u32Bytes value) := by
  obtain ⟨-, -, raw⟩ := bind_eq_ok.mp read
  rw [View.rawU32_eq_rawBlock] at raw
  obtain ⟨block, four, made⟩ := bind_eq_ok.mp raw
  have length := length_of_rawBlock four
  obtain ⟨b₀, b₁, b₂, b₃, rfl⟩ := List.length_eq_four.mp length
  cases made
  rw [u32Bytes_u32OfBytes]
  exact View.holds_of_rawBlock four

/-- A string that was copied lies in the view. -/
theorem holds_of_copyString {heap : Heap} {n : Nat} {string : List UInt8}
    (copied : data.copyString heap i n = .ok string) :
    data.Holds i string ∧ string.length = n := by
  rw [View.copyString] at copied
  split at copied
  · cases copied
  · split at copied
    · exact ⟨View.holds_of_rawBlock copied, length_of_rawBlock copied⟩
    · cases copied

end Read

/-! ## The prefixes of a message -/

/-- The prefix at a place is the shortest numeral of a number below `2 ^ 28`. -/
def Minimal (data : View) (i : Nat) : Prop :=
  ∀ bytes, PrefixAt data i (wrapSub data.size i) bytes → ∃ n < 2 ^ 28, bytes = encode n

/-- The place of the prefix of each of the strings that lie one after the other. -/
inductive StringPlace (data : View) : Nat → Nat → Nat → Prop
  | here {start : Nat} : StringPlace data start 0 start
  | later {start k i : Nat} {bytes : List UInt8}
      (first : PrefixAt data start (wrapSub data.size start) bytes)
      (rest : StringPlace data (start + bytes.length + prefixLength bytes) k i) :
      StringPlace data start (k + 1) i

/-- The places of the length prefixes in a message of some type. -/
inductive PrefixPlace (data : View) (off : Nat) : EMessageType → Nat → Prop
  | versions : PrefixPlace data off .handshakeBegin (off + 3)
  | protocols : PrefixPlace data off .handshakeProtocols (off + 3)
  | protocolName {bytes : List UInt8} {k i : Nat}
      (counted : PrefixAt data (off + 3) (wrapSub data.size (off + 3)) bytes)
      (counts : k < prefixLength bytes)
      (place : StringPlace data (off + 3 + bytes.length) k i) :
      PrefixPlace data off .handshakeProtocols i
  | protocol : PrefixPlace data off .bindProtocol (off + 7)
  | errorMsg : PrefixPlace data off .fatalProtocolError (off + 12)

/-- A minimal prefix that was read is what the encoder writes for its value. -/
theorem Minimal.encoded {data : View} {i : Nat} {bytes : List UInt8} (minimal : Minimal data i)
    (lies : PrefixAt data i (wrapSub data.size i) bytes) :
    prefixLength bytes < 2 ^ 28 ∧ bytes = encodeVarInt (prefixLength bytes) := by
  obtain ⟨n, small, rfl⟩ := minimal bytes lies
  have short : (encode n).length ≤ 4 := length_encode_le (by decide) (by simpa using small)
  rw [prefixLength_eq short, value_encode, encodeVarInt_eq small]
  exact ⟨small, rfl⟩

/-- A numeral that lies in the span is the prefix that is read there. -/
theorem Header.eq_of_numeral {data : View} {start len : Nat} {bytes numeral : List UInt8}
    (header : Header len bytes) (shortest : Numeral numeral) (room : numeral.length ≤ len)
    (read : data.Holds start bytes) (lies : data.Holds start numeral) : bytes = numeral := by
  induction bytes generalizing start len numeral with
  | nil => exact header.elim
  | cons byte rest ih =>
      cases numeral with
      | nil => exact shortest.elim
      | cons byte' rest' =>
          obtain ⟨here, behind⟩ := View.holds_cons.mp read
          obtain ⟨here', behind'⟩ := View.holds_cons.mp lies
          obtain rfl := Option.some.inj (here.symm.trans here')
          rw [List.length_cons] at room
          cases rest with
          | nil =>
              cases rest' with
              | nil => rfl
              | cons next' rest' =>
                  rw [List.length_cons] at room
                  exact absurd ⟨by omega, shortest.1⟩ header
          | cons next rest =>
              cases rest' with
              | nil => exact absurd header.1.2 shortest
              | cons next' rest' =>
                  rw [ih header.2 shortest.2 (by omega) behind behind']

/-- What the encoder writes is minimal. -/
theorem minimal_of_holds {data : View} {i n : Nat} (small : n < 2 ^ 28)
    (holds : data.Holds i (encodeVarInt n))
    (inside : (encodeVarInt n).length ≤ wrapSub data.size i) : Minimal data i := by
  intro bytes lies
  refine ⟨n, small, ?_⟩
  rw [encodeVarInt_eq small] at holds inside
  exact lies.header.eq_of_numeral (numeral_encode n) inside lies.holds holds

/-! ## Accepted bytes -/

/-- A result with a length was read from these bytes, which lie at the offset. -/
def Spells (data : View) (offset len : Nat) (bytes : List UInt8) : Prop :=
  len ≠ 0 → data.Holds offset bytes ∧ len = bytes.length

theorem spells_zero (data : View) (offset : Nat) (bytes : List UInt8) :
    Spells data offset 0 bytes :=
  fun nonzero => absurd rfl nonzero

/-- What was read right behind some bytes follows them. -/
theorem holds_behind {data : View} {start place : Nat} {first second : List UInt8}
    (before : data.Holds start first) (after : data.Holds place second)
    (next : place = start + first.length) : data.Holds start (first ++ second) :=
  View.holds_append.mpr ⟨before, next ▸ after⟩

/-- Fixed bytes lie one after the other. -/
theorem holds_two {data : View} {i : Nat} {b₀ b₁ : UInt8} (small : data.size < 2 ^ 63)
    (first : data.checkedAt i = .ok b₀) (second : data.checkedAt (i + 1) = .ok b₁) :
    data.Holds i [b₀, b₁] :=
  holds_behind (holds_of_checkedAt small first) (holds_of_checkedAt small second) rfl

theorem holds_three {data : View} {i : Nat} {b₀ b₁ b₂ : UInt8} (small : data.size < 2 ^ 63)
    (first : data.checkedAt i = .ok b₀) (second : data.checkedAt (i + 1) = .ok b₁)
    (third : data.checkedAt (i + 2) = .ok b₂) : data.Holds i [b₀, b₁, b₂] :=
  holds_behind (holds_two small first second) (holds_of_checkedAt small third) rfl

section Decoders

variable {heap : Heap} {data : View} {offset : Nat}

/-- The versions that were read lie one after the other. -/
theorem CHandshakeBeginMessage.holds_of_readVersions {n index : Nat} {versions : List UInt32}
    (small : index + 4 * n < 2 ^ 64) (read : readVersions data n index = .ok versions) :
    data.Holds index (versions.flatMap u32Bytes) ∧ versions.length = n := by
  induction n generalizing index versions with
  | zero =>
      cases read
      exact ⟨View.holds_nil _ _, rfl⟩
  | succ n ih =>
      obtain ⟨version, first, more⟩ := bind_eq_ok.mp read
      obtain ⟨rest, others, same⟩ := bind_eq_ok.mp more
      cases same
      rw [wrap_of_lt (by omega)] at first
      obtain ⟨held, length⟩ := ih (by omega) others
      refine ⟨View.holds_append.mpr ⟨holds_of_u32At first, held⟩, ?_⟩
      rw [List.length_cons, length]

theorem CHandshakeBeginMessage.spells (small : data.size < 2 ^ 63)
    (minimal : Minimal data (offset + 3)) :
    Accepts (fun msg => Spells data offset msg.len (encode msg.versionsSupported))
      (CHandshakeBeginMessage.decode heap data offset) := by
  refine accepts_catch (spells_zero _ _ _) ?_
  refine accepts_expect (spells_zero _ _ _) fun first => ?_
  refine accepts_expect (spells_zero _ _ _) fun second => ?_
  refine accepts_expect (spells_zero _ _ _) fun third => ?_
  refine accepts_bind fun ⟨nVers, varIntLen⟩ counted => ?_
  obtain ⟨bytes, lies, rfl, rfl⟩ := parseVarInt_eq_ok.mp counted
  obtain ⟨few, encoded⟩ := minimal.encoded lies
  refine accepts_bind fun _ _ => accepts_bind fun versions read => ?_
  refine accepts_expect (spells_zero _ _ _) fun last => accepts_pure fun _ => ?_
  have short := lies.short
  have inside := lt_of_checkedAt first
  obtain ⟨versionsHeld, length⟩ := holds_of_readVersions (by omega) read
  have needle : wrap (3 + bytes.length + prefixLength bytes * 4) =
      3 + bytes.length + 4 * prefixLength bytes := by
    rw [wrap_of_lt (by omega), Nat.mul_comm]
  rw [needle, wrap_of_lt (by omega)] at last
  have versionsLength : (versions.flatMap u32Bytes).length = 4 * prefixLength bytes := by
    rw [length_flatMap_u32Bytes, length]
  rw [needle, wrap_of_lt (by omega), encode, length, ← encoded]
  have tags := holds_three small first second third
  have counting := holds_behind tags lies.holds rfl
  have whole := holds_behind counting versionsHeld (by simp; omega)
  refine ⟨holds_behind whole (holds_of_checkedAt small last) ?_, ?_⟩
  · simp only [List.length_append, List.length_cons, List.length_nil, versionsLength]
  · simp only [List.length_append, List.length_cons, List.length_nil, versionsLength]

theorem CHandshakeAckMessage.spells (small : data.size < 2 ^ 63) :
    Accepts (fun msg => Spells data offset msg.len (encode msg.version))
      (CHandshakeAckMessage.decode data offset) := by
  refine accepts_catch (spells_zero _ _ _) ?_
  refine accepts_expect (spells_zero _ _ _) fun first => ?_
  refine accepts_expect (spells_zero _ _ _) fun second => ?_
  refine accepts_expect (spells_zero _ _ _) fun last => ?_
  refine accepts_ite (fun _ => accepts_pure (spells_zero _ _ _)) fun _ => ?_
  refine accepts_bind fun version read => accepts_pure fun _ => ⟨?_, rfl⟩
  have tags := holds_two small first second
  have whole := holds_behind tags (holds_of_u32At read) rfl
  exact holds_behind whole (holds_of_checkedAt small last) rfl

/-- The strings that were read lie one after the other, and each starts inside the buffer. -/
theorem CHandshakeProtocolsMessage.holds_of_readProtocols {n needle : Nat}
    (small : data.size < 2 ^ 63) (short : offset + needle < 2 ^ 63 + 2 ^ 62)
    (minimal : ∀ k i, k < n → StringPlace data (offset + needle) k i → Minimal data i) :
    Accepts (fun read => data.Holds (offset + needle)
        (read.1.flatMap fun protocol => encodeVarInt protocol.length ++ protocol) ∧
        read.2 = needle +
          (read.1.flatMap fun protocol => encodeVarInt protocol.length ++ protocol).length ∧
        read.1.length = n ∧ offset + read.2 < 2 ^ 63 + 2 ^ 62)
      (readProtocols heap data offset n needle) := by
  induction n generalizing needle with
  | zero => exact accepts_pure ⟨View.holds_nil _ _, rfl, rfl, short⟩
  | succ n ih =>
      refine accepts_bind fun ⟨strLen, strLenLen⟩ counted => ?_
      rw [wrap_of_lt (show offset + needle < 2 ^ 64 by omega)] at counted
      obtain ⟨bytes, lies, rfl, rfl⟩ := parseVarInt_eq_ok.mp counted
      obtain ⟨-, encoded⟩ := (minimal 0 _ (Nat.succ_pos n) .here).encoded lies
      have few := (minimal 0 _ (Nat.succ_pos n) .here).encoded lies |>.1
      have header := lies.short
      refine accepts_bind fun byte starts => accepts_bind fun protocol copied => ?_
      have inside := lt_of_checkedAt starts
      have start : wrap (offset + needle + bytes.length) = offset + needle + bytes.length :=
        wrap_of_lt (by omega)
      rw [start] at inside copied
      have next : wrap (needle + prefixLength bytes + bytes.length) =
          needle + bytes.length + prefixLength bytes := by
        rw [wrap_of_lt (by omega)]
        omega
      rw [next]
      obtain ⟨protocolHeld, protocolLength⟩ := holds_of_copyString copied
      refine accepts_bind fun ⟨rest, last⟩ read => accepts_pure ?_
      have later : ∀ k i, k < n →
          StringPlace data (offset + (needle + bytes.length + prefixLength bytes)) k i →
          Minimal data i := by
        intro k i counts place
        refine minimal (k + 1) i (Nat.succ_lt_succ counts) (.later lies ?_)
        rwa [← Nat.add_assoc, ← Nat.add_assoc] at place
      obtain ⟨restHeld, ends, length, bound⟩ := ih (by omega) later _ read
      simp only at restHeld ends length bound
      have first := holds_behind lies.holds protocolHeld rfl
      simp only [List.flatMap_cons, protocolLength, ← encoded, List.length_append,
        List.length_cons, length]
      refine ⟨holds_behind first restHeld ?_, ?_, trivial, bound⟩
      · rw [List.length_append, protocolLength]
        omega
      · omega

theorem CHandshakeProtocolsMessage.spells (small : data.size < 2 ^ 63)
    (minimal : ∀ i, PrefixPlace data offset .handshakeProtocols i → Minimal data i) :
    Accepts (fun msg => Spells data offset msg.len (encode msg.protocols))
      (CHandshakeProtocolsMessage.decode heap data offset) := by
  refine accepts_catch (spells_zero _ _ _) ?_
  refine accepts_expect (spells_zero _ _ _) fun first => ?_
  refine accepts_expect (spells_zero _ _ _) fun second => ?_
  refine accepts_expect (spells_zero _ _ _) fun third => ?_
  refine accepts_bind fun ⟨els, varIntLen⟩ counted => ?_
  obtain ⟨bytes, lies, rfl, rfl⟩ := parseVarInt_eq_ok.mp counted
  obtain ⟨-, encoded⟩ := (minimal _ .protocols).encoded lies
  refine accepts_bind fun _ _ => accepts_bind fun ⟨protocols, needle⟩ read => ?_
  refine accepts_expect (spells_zero _ _ _) fun last => accepts_pure fun _ => ?_
  have short := lies.short
  have inside := lt_of_checkedAt first
  have names : ∀ k i, k < prefixLength bytes →
      StringPlace data (offset + (3 + bytes.length)) k i → Minimal data i := by
    intro k i counts place
    rw [← Nat.add_assoc] at place
    exact minimal i (.protocolName lies counts place)
  obtain ⟨namesHeld, ends, length, bound⟩ :=
    holds_of_readProtocols small (by omega) names _ read
  simp only at namesHeld ends length bound
  rw [wrap_of_lt (by omega)] at last
  rw [wrap_of_lt (by omega), encode, length, ← encoded]
  have tags := holds_three small first second third
  have counting := holds_behind tags lies.holds rfl
  have whole := holds_behind counting namesHeld (by simp; omega)
  refine ⟨holds_behind whole (holds_of_checkedAt small last) ?_, ?_⟩
  · simp only [List.length_append, List.length_cons, List.length_nil]
    omega
  · simp only [List.length_append, List.length_cons, List.length_nil]
    omega

theorem CBindProtocolMessage.spells (small : data.size < 2 ^ 63)
    (minimal : Minimal data (offset + 7)) :
    Accepts (fun msg => Spells data offset msg.len (encode msg.protocol msg.seq msg.version))
      (CBindProtocolMessage.decode heap data offset) := by
  refine accepts_catch (spells_zero _ _ _) ?_
  refine accepts_expect (spells_zero _ _ _) fun first => ?_
  refine accepts_expect (spells_zero _ _ _) fun second => ?_
  refine accepts_bind fun seq seqRead => ?_
  refine accepts_expect (spells_zero _ _ _) fun third => ?_
  refine accepts_bind fun ⟨strLen, varIntLen⟩ counted => ?_
  obtain ⟨bytes, lies, rfl, rfl⟩ := parseVarInt_eq_ok.mp counted
  obtain ⟨few, encoded⟩ := minimal.encoded lies
  have short := lies.short
  refine accepts_bind fun _ _ => accepts_bind fun protocol copied => ?_
  refine accepts_expect (spells_zero _ _ _) fun fourth => ?_
  refine accepts_bind fun version versionRead => ?_
  refine accepts_ite (fun _ => accepts_pure (spells_zero _ _ _)) fun _ => ?_
  refine accepts_expect (spells_zero _ _ _) fun last => accepts_pure fun _ => ?_
  have inside := lt_of_checkedAt first
  have needle : wrap (7 + bytes.length + prefixLength bytes) =
      7 + bytes.length + prefixLength bytes := wrap_of_lt (by omega)
  have needle' : wrap (7 + bytes.length + prefixLength bytes + 5) =
      7 + bytes.length + prefixLength bytes + 5 := wrap_of_lt (by omega)
  rw [wrap_of_lt (by omega)] at copied
  rw [needle, wrap_of_lt (by omega)] at fourth versionRead
  rw [needle, needle', wrap_of_lt (by omega)] at last
  obtain ⟨protocolHeld, length⟩ := holds_of_copyString copied
  rw [needle, needle', wrap_of_lt (by omega), encode, length, ← encoded]
  have tags := holds_two small first second
  have numbered := holds_behind tags (holds_of_u32At seqRead) rfl
  have tagged := holds_behind numbered (holds_of_checkedAt small third) rfl
  have counting := holds_behind tagged lies.holds rfl
  have named := holds_behind counting protocolHeld (by simp; omega)
  have tagged' := holds_behind named (holds_of_checkedAt small fourth) (by simp; omega)
  have versioned := holds_behind tagged' (holds_of_u32At versionRead) (by simp; omega)
  exact ⟨holds_behind versioned (holds_of_checkedAt small last) (by simp; omega), by simp; omega⟩

theorem CNewObjectMessage.spells (small : data.size < 2 ^ 63) :
    Accepts (fun msg => Spells data offset msg.len (encode msg.seq msg.id))
      (CNewObjectMessage.decode data offset) := by
  refine accepts_catch (spells_zero _ _ _) ?_
  refine accepts_expect (spells_zero _ _ _) fun first => ?_
  refine accepts_expect (spells_zero _ _ _) fun second => ?_
  refine accepts_ite (fun _ => accepts_pure (spells_zero _ _ _)) fun _ => ?_
  refine accepts_bind fun id idRead => ?_
  refine accepts_expect (spells_zero _ _ _) fun third => ?_
  refine accepts_bind fun seq seqRead => ?_
  refine accepts_expect (spells_zero _ _ _) fun last => ?_
  refine accepts_pure fun _ => ⟨?_, rfl⟩
  have tags := holds_two small first second
  have named := holds_behind tags (holds_of_u32At idRead) rfl
  have tagged := holds_behind named (holds_of_checkedAt small third) rfl
  have numbered := holds_behind tagged (holds_of_u32At seqRead) rfl
  exact holds_behind numbered (holds_of_checkedAt small last) rfl

theorem CFatalErrorMessage.spells (small : data.size < 2 ^ 63)
    (minimal : Minimal data (offset + 12)) :
    Accepts (fun msg => Spells data offset msg.len
        (encode (some msg.objectId) msg.errorId msg.errorMsg))
      (CFatalErrorMessage.decode heap data offset) := by
  refine accepts_catch (spells_zero _ _ _) ?_
  refine accepts_expect (spells_zero _ _ _) fun first => ?_
  refine accepts_expect (spells_zero _ _ _) fun second => ?_
  refine accepts_bind fun objectId objectRead => ?_
  refine accepts_expect (spells_zero _ _ _) fun third => ?_
  refine accepts_bind fun errorId errorRead => ?_
  refine accepts_expect (spells_zero _ _ _) fun fourth => ?_
  refine accepts_bind fun ⟨strLen, strLenLen⟩ counted => ?_
  obtain ⟨bytes, lies, rfl, rfl⟩ := parseVarInt_eq_ok.mp counted
  obtain ⟨few, encoded⟩ := minimal.encoded lies
  have short := lies.short
  have inside := lt_of_checkedAt first
  refine accepts_bind fun errorMsg copied => ?_
  refine accepts_expect (spells_zero _ _ _) fun last => accepts_pure fun _ => ?_
  have needle : wrap (12 + bytes.length + prefixLength bytes) =
      12 + bytes.length + prefixLength bytes := wrap_of_lt (by omega)
  rw [wrap_of_lt (by omega)] at copied
  rw [needle, wrap_of_lt (by omega)] at last
  obtain ⟨msgHeld, length⟩ := holds_of_copyString copied
  rw [needle, wrap_of_lt (by omega), encode, length, ← encoded]
  have tags := holds_two small first second
  have object := holds_behind tags (holds_of_u32At objectRead) rfl
  have tagged := holds_behind object (holds_of_checkedAt small third) rfl
  have numbered := holds_behind tagged (holds_of_u32At errorRead) rfl
  have tagged' := holds_behind numbered (holds_of_checkedAt small fourth) rfl
  have counting := holds_behind tagged' lies.holds rfl
  have worded := holds_behind counting msgHeld (by simp; omega)
  exact ⟨holds_behind worded (holds_of_checkedAt small last) (by simp; omega), by simp; omega⟩

theorem SeqMessage.spells {type : EMessageType} (small : data.size < 2 ^ 63) :
    Accepts (fun msg => Spells data offset msg.len (encode type msg.seq))
      (SeqMessage.decode type data offset) := by
  refine accepts_catch (spells_zero _ _ _) ?_
  refine accepts_expect (spells_zero _ _ _) fun first => ?_
  refine accepts_expect (spells_zero _ _ _) fun second => ?_
  refine accepts_ite (fun _ => accepts_pure (spells_zero _ _ _)) fun _ => ?_
  refine accepts_bind fun seq read => ?_
  refine accepts_expect (spells_zero _ _ _) fun last => ?_
  refine accepts_pure fun _ => ⟨?_, rfl⟩
  have tags := holds_two small first second
  have numbered := holds_behind tags (holds_of_u32At read) rfl
  exact holds_behind numbered (holds_of_checkedAt small last) rfl

end Decoders

/-! ## Slices -/

/-- The message that the sending constructor makes of the fields that were read. The object
of an error has the id that was read. -/
def Received.resent : Received → Option Message
  | .handshakeBegin versions => some (.handshakeBegin versions)
  | .handshakeAck version => some (.handshakeAck version)
  | .handshakeProtocols protocols => some (.handshakeProtocols protocols)
  | .bindProtocol protocol seq version => some (.bindProtocol protocol seq version)
  | .newObject seq id => some (.newObject seq id)
  | .fatalError objectId errorId errorMsg => some (.fatalError (some objectId) errorId errorMsg)
  | .roundtripRequest seq => some (.roundtripRequest seq)
  | .roundtripDone seq => some (.roundtripDone seq)
  | .hello => none
  | .generic _ => none

/-- All length prefixes of a message of some type are minimal. -/
def MinimalPrefixes (data : View) (off : Nat) (type : EMessageType) : Prop :=
  ∀ i, PrefixPlace data off type i → Minimal data i

/-- The bytes of an accepted message lie at its offset, inside the buffer. -/
theorem Decoded.spells {heap : Heap} {data : View} {fds left : List Fd} {off len : Nat}
    {received : Received} {message : Message} (small : data.size < 2 ^ 63)
    (decoded : Decoded heap data fds off received len left) (accepted : len ≠ 0)
    (resent : received.resent = some message)
    (minimal : MinimalPrefixes data off received.type) :
    data.Holds off message.data ∧ len = message.data.length ∧ len ≤ data.size - off := by
  cases decoded with
  | hello decoded => cases resent
  | generic decoded => cases resent
  | handshakeBegin decoded =>
      cases resent
      have spells := CHandshakeBeginMessage.spells small (minimal _ .versions) _ decoded accepted
      exact ⟨spells.1, spells.2, CHandshakeBeginMessage.accepts small _ decoded accepted⟩
  | handshakeAck decoded =>
      cases resent
      have spells := CHandshakeAckMessage.spells small _ decoded accepted
      exact ⟨spells.1, spells.2, CHandshakeAckMessage.accepts _ decoded accepted⟩
  | handshakeProtocols decoded =>
      cases resent
      have spells := CHandshakeProtocolsMessage.spells small minimal _ decoded accepted
      exact ⟨spells.1, spells.2, CHandshakeProtocolsMessage.accepts small _ decoded accepted⟩
  | bindProtocol decoded =>
      cases resent
      have spells := CBindProtocolMessage.spells small (minimal _ .protocol) _ decoded accepted
      exact ⟨spells.1, spells.2, CBindProtocolMessage.accepts small _ decoded accepted⟩
  | newObject decoded =>
      cases resent
      have spells := CNewObjectMessage.spells small _ decoded accepted
      exact ⟨spells.1, spells.2, CNewObjectMessage.accepts _ decoded accepted⟩
  | fatalError decoded =>
      cases resent
      have spells := CFatalErrorMessage.spells small (minimal _ .errorMsg) _ decoded accepted
      exact ⟨spells.1, spells.2, CFatalErrorMessage.accepts small _ decoded accepted⟩
  | roundtripRequest decoded =>
      cases resent
      have spells := SeqMessage.spells small _ decoded accepted
      exact ⟨spells.1, spells.2, SeqMessage.accepts _ decoded accepted⟩
  | roundtripDone decoded =>
      cases resent
      have spells := SeqMessage.spells small _ decoded accepted
      exact ⟨spells.1, spells.2, SeqMessage.accepts _ decoded accepted⟩

/-- Bytes that lie in a vector are a slice of it. -/
theorem slice_of_holds {v : ByteVec} {outside : Nat → Option UInt8} {off : Nat}
    {bytes : List UInt8} (holds : (v.viewIn outside).Holds off bytes)
    (inside : off + bytes.length ≤ v.data.length) :
    (v.data.drop off).take bytes.length = bytes := by
  have bound := v.length_lt
  have rest : bytes.length ≤ (v.data.drop off).length := by
    rw [List.length_drop]
    omega
  refine List.ext_getElem (List.length_take_of_le rest) fun k _ within => ?_
  have before : off + k < v.data.length := by omega
  have same := holds k within
  rw [wrap_of_lt (by omega)] at same
  simp only [ByteVec.viewIn, if_pos before, List.getElem?_eq_getElem before] at same
  rw [List.getElem_take, List.getElem_drop]
  exact Option.some.inj same

/-- A buffer, an offset of it, and the message that a decoder accepts there, with minimal
length prefixes. -/
structure AcceptedSlice (received : Received) where
  heap : Heap
  vector : ByteVec
  outside : Nat → Option UInt8
  fds : List Fd
  left : List Fd
  off : Nat
  len : Nat
  decoded : Decoded heap (vector.viewIn outside) fds off received len left
  accepted : len ≠ 0
  minimal : MinimalPrefixes (vector.viewIn outside) off received.type

/-- The accepted bytes. -/
def AcceptedSlice.bytes {received : Received} (slice : AcceptedSlice received) : List UInt8 :=
  (slice.vector.data.drop slice.off).take slice.len

/-- The accepted bytes are what the sending constructor makes of the fields. -/
theorem AcceptedSlice.bytes_eq {received : Received} {message : Message}
    (slice : AcceptedSlice received) (resent : received.resent = some message) :
    slice.bytes = message.data := by
  obtain ⟨holds, length, inside⟩ := Decoded.spells slice.vector.length_lt slice.decoded
    slice.accepted resent slice.minimal
  have nonzero := slice.accepted
  rw [ByteVec.size_viewIn] at inside
  rw [AcceptedSlice.bytes, length]
  exact slice_of_holds holds (by omega)

/-- **A control message is accepted only as it is written.** What a decoder accepts is, byte
for byte, what the sending constructor makes of the fields that were read, and whatever
other slice the decoder accepts with the same fields is the same. -/
theorem accepted_encoded {received : Received} {message : Message}
    (resent : received.resent = some message) (slice : AcceptedSlice received) :
    slice.off + slice.len ≤ slice.vector.data.length ∧ slice.bytes = message.data ∧
      ∀ other : AcceptedSlice received, other.bytes = slice.bytes := by
  refine ⟨?_, slice.bytes_eq resent, fun other => ?_⟩
  · obtain ⟨-, -, inside⟩ := Decoded.spells slice.vector.length_lt slice.decoded
      slice.accepted resent slice.minimal
    have nonzero := slice.accepted
    rw [ByteVec.size_viewIn] at inside
    omega
  · rw [other.bytes_eq resent, slice.bytes_eq resent]

/-- The bind of a protocol called `ab` lies in front of another byte. -/
def boundSlice : AcceptedSlice (.bindProtocol [0x61, 0x62] 1 3) where
  heap := .ample
  vector := ⟨CBindProtocolMessage.encode [0x61, 0x62] 1 3 ++ [0xff], by decide⟩
  outside := fun _ => none
  fds := []
  left := []
  off := 0
  len := 16
  decoded := by
    refine @Decoded.bindProtocol _ _ _ _ ⟨[0x61, 0x62], 1, 3, 16⟩ ?_
    rfl
  accepted := by decide
  minimal := by
    rintro i ⟨⟩
    have two : encodeVarInt 2 = [2] := by decide
    refine minimal_of_holds (n := 2) (by decide) ?_ (by decide)
    rw [two]
    exact View.holds_cons.mpr ⟨rfl, View.holds_nil _ _⟩

theorem accepted_encoded_bound :
    boundSlice.off + boundSlice.len ≤ boundSlice.vector.data.length ∧
      boundSlice.bytes = (Message.bindProtocol [0x61, 0x62] 1 3).data ∧
      ∀ other : AcceptedSlice (.bindProtocol [0x61, 0x62] 1 3), other.bytes = boundSlice.bytes :=
  accepted_encoded rfl boundSlice

end Hyprwire.Wire
