import Hyprwire.Client.ServerSpecs
import Hyprwire.Server.ServerClient
import Hyprwire.Wire.Framing

/-!
# Advertised protocols

A server lists its protocols in `HANDSHAKE_PROTOCOLS`, each as its name, an `@` and its
version in decimal digits. The client takes the version from behind the last `@`. The digits
have none, so that a name can have as many as it likes, and the client knows what the server
has: `advertised_round_trip`.
-/

set_option autoImplicit false

namespace Hyprwire.Link

open Cpp Wire Object Client Server

/-! ## The bytes of a text -/

theorem toList_loop {bytes : ByteArray} {n i : Nat} (left : bytes.size - i = n)
    (before : List UInt8) :
    ByteArray.toList.loop bytes i before = before.reverse ++ bytes.data.toList.drop i := by
  induction n generalizing i before with
  | zero =>
      rw [ByteArray.toList.loop, if_neg (by omega), List.drop_eq_nil_of_le, List.append_nil]
      rw [Array.length_toList]
      exact Nat.le_of_sub_eq_zero left
  | succ n ih =>
      have inside : i < bytes.data.size := Nat.lt_of_sub_eq_succ left
      have listed : i < bytes.data.toList.length := inside
      have same : bytes.get! i = bytes.data.toList[i] := by
        rw [Array.getElem_toList]
        exact getElem!_pos bytes.data i inside
      rw [ByteArray.toList.loop, if_pos (by omega), ih (by omega), List.reverse_cons,
        List.append_assoc, List.drop_eq_getElem_cons listed, List.singleton_append, same]

/-- The bytes of a text are those of its array. -/
theorem text_eq (message : String) : text message = message.toByteArray.data.toList := by
  rw [text, String.toUTF8_eq_toByteArray, ByteArray.toList, toList_loop rfl]
  rfl

theorem text_append (first second : String) :
    text (first ++ second) = text first ++ text second := by
  simp only [text_eq, String.toByteArray_append, ByteArray.toList_data_append]

/-! ## Decimal digits -/

/-- A digit is written as one byte. -/
theorem utf8EncodeChar_digit {c : Char} (digit : c.isDigit = true) :
    String.utf8EncodeChar c = [UInt8.ofNat c.toNat] ∧
      CClientSocket.isDigit (UInt8.ofNat c.toNat) = true ∧
      (UInt8.ofNat c.toNat).toNat = c.toNat := by
  simp only [Char.isDigit, ge_iff_le, Bool.and_eq_true, decide_eq_true_eq, UInt32.le_iff_toNat_le]
    at digit
  have first : 48 ≤ c.val.toNat := digit.1
  have last : c.val.toNat ≤ 57 := digit.2
  have value : (UInt8.ofNat c.toNat).toNat = c.toNat := by
    rw [UInt8.toNat_ofNat']
    exact Nat.mod_eq_of_lt (Nat.lt_of_le_of_lt last (by decide))
  refine ⟨?_, ?_, value⟩
  · rw [String.utf8EncodeChar, if_pos (show c.val.toNat ≤ 0x7f by omega)]
    rfl
  · rw [CClientSocket.isDigit, decide_eq_true_eq, UInt8.le_iff_toNat_le, UInt8.le_iff_toNat_le,
      value]
    exact ⟨first, last⟩

/-- A number is written as its digits. -/
theorem text_repr (n : Nat) :
    text (toString n) = (Nat.toDigits 10 n).map fun c => UInt8.ofNat c.toNat := by
  have digits : ∀ c ∈ Nat.toDigits 10 n, c.isDigit = true :=
    fun c has => Nat.isDigit_of_mem_toDigits (by decide) (by decide) has
  rw [text_eq, Nat.toString_eq_ofList_toDigits, String.toByteArray_ofList, List.utf8Encode,
    List.toList_data_toByteArray, List.map_eq_flatMap]
  exact List.flatMap_congr fun c has => (utf8EncodeChar_digit (digits c has)).1

theorem isDigit_text_repr {n : Nat} {byte : UInt8} (member : byte ∈ text (toString n)) :
    CClientSocket.isDigit byte = true := by
  rw [text_repr] at member
  obtain ⟨c, has, rfl⟩ := List.mem_map.mp member
  exact (utf8EncodeChar_digit (Nat.isDigit_of_mem_toDigits (by decide) (by decide) has)).2.1

/-- The digits of a number do not have the sign that separates it from the name. -/
theorem at_not_mem_text_repr (n : Nat) : 0x40 ∉ text (toString n) := by
  intro member
  have digit := isDigit_text_repr member
  exact absurd digit (by decide)

/-- The digits of a number have its value. -/
theorem value_text_repr (n : Nat) :
    CClientSocket.decimal (text (toString n)) = n := by
  have each : ∀ (digits : List Char) (before : Nat), (∀ c ∈ digits, c.isDigit = true) →
      (digits.map fun c => UInt8.ofNat c.toNat).foldl
        (fun value digit => 10 * value + (digit.toNat - 0x30)) before =
        Nat.ofDigitChars 10 digits before := by
    intro digits
    induction digits with
    | nil => exact fun _ _ => rfl
    | cons c rest ih =>
        intro before all
        have digit := all c List.mem_cons_self
        rw [List.map_cons, List.foldl_cons, (utf8EncodeChar_digit digit).2.2,
          Nat.ofDigitChars_cons]
        exact ih _ fun c member => all c (List.mem_cons_of_mem _ member)
  rw [CClientSocket.decimal, text_repr, each _ _ fun c has => Nat.isDigit_of_mem_toDigits (by decide) (by decide) has,
    Nat.ofDigitChars_ten_toDigits]

theorem stoul_text_repr {n : Nat} (small : n < 2 ^ 64) :
    CClientSocket.stoul (text (toString n)) = some n := by
  have some_ : text (toString n) ≠ [] := by
    rw [text_repr]
    exact fun none => Nat.toDigits_ne_nil (List.map_eq_nil_iff.mp none)
  have value := value_text_repr n
  rw [CClientSocket.stoul_of_digits some_ (fun byte member => isDigit_text_repr member)
    (by rw [value]; exact small), value]

/-! ## Names -/

theorem advertised_eq (p : IProtocolServerImplementation) :
    CServerClient.advertised p =
      p.protocol.specName ++ 0x40 :: text (toString p.protocol.specVer.toNat) := by
  rw [CServerClient.advertised]
  refine congrArg _ ((text_append _ _).trans ?_)
  rw [show text (toString "@") = [0x40] by rw [text_eq]; rfl]
  rfl

/-- What a client knows of a protocol of a server. -/
def told (p : IProtocolServerImplementation) : CServerSpec where
  name := p.protocol.specName
  version := p.protocol.specVer

/-- **An advertised string is read as the name and the version that it was made of.** -/
theorem serverSpec_advertised (p : IProtocolServerImplementation) :
    CClientSocket.serverSpec (CServerClient.advertised p) = some (told p) := by
  have small : p.protocol.specVer.toNat < 2 ^ 64 :=
    Nat.lt_trans p.protocol.specVer.toNat_lt (by decide)
  rw [advertised_eq, CClientSocket.serverSpec_append _ (at_not_mem_text_repr _),
    stoul_text_repr small, Option.map_some, UInt32.ofNat_toNat, told]

/-- A client reads all of the strings of a server. -/
theorem addServerSpecs_advertised (impls : Server.Impls) (client : CClientSocket) :
    CClientSocket.addServerSpecs (impls.map CServerClient.advertised) client =
      { client with serverSpecs := client.serverSpecs ++ impls.map told } := by
  induction impls generalizing client with
  | nil => simp only [List.map_nil, CClientSocket.addServerSpecs, List.append_nil]
  | cons p rest ih =>
      simp only [List.map_cons, CClientSocket.addServerSpecs, serverSpec_advertised]
      rw [ih, List.append_assoc, List.singleton_append]

/-- The first protocol with a name is that of the first implementation with it. -/
theorem getSpec_told (impls : Server.Impls) {client : CClientSocket}
    (known : client.serverSpecs = impls.map told) (name : Str) :
    client.getSpec name = (CServerClient.implFor impls name).map told := by
  rw [CClientSocket.getSpec, known, List.find?_map, CServerClient.implFor]
  rfl

/-! ## The message -/

/-- The list of what a server advertises fits the wire. -/
def Fitting (impls : Server.Impls) : Prop :=
  impls.length < 2 ^ 28 ∧ ∀ p ∈ impls, (CServerClient.advertised p).length < 2 ^ 28

/-- The message of a server with its protocols, which is the answer to `HANDSHAKE_ACK`. -/
def advertisement (impls : Server.Impls) : Message :=
  .handshakeProtocols (impls.map CServerClient.advertised)

theorem Fitting.read {impls : Server.Impls} (fits : Fitting impls) {data : View} {offset : Nat}
    (holds : data.Holds offset (advertisement impls).data)
    (inside : offset + (advertisement impls).data.length ≤ data.size) (small : data.size < 2 ^ 63)
    (fds : List Fd) :
    parseClient .ample data fds offset =
      some (.ok (.message (.handshakeProtocols (impls.map CServerClient.advertised))
        (advertisement impls).data.length, fds)) := by
  have before : offset < data.size :=
    Nat.lt_of_lt_of_le (Nat.lt_add_of_pos_right (Nat.zero_lt_succ _)) inside
  have tag : data.checkedAt offset = .ok EMessageType.handshakeProtocols.code :=
    View.checkedAt_inside holds before small
  have short : ∀ name ∈ impls.map CServerClient.advertised, name.length < 2 ^ 28 := by
    intro name member
    obtain ⟨p, offered, rfl⟩ := List.mem_map.mp member
    exact fits.2 p offered
  have few : (impls.map CServerClient.advertised).length < 2 ^ 28 := by
    rw [List.length_map]
    exact fits.1
  have decoded := CHandshakeProtocolsMessage.decode_of_holds holds inside small few short
  have nonzero : (CHandshakeProtocolsMessage.encode
      (impls.map CServerClient.advertised)).length ≠ 0 := Nat.succ_ne_zero _
  simp only [parseClient, tag, EMessageType.ofByte_code, decoded, ok_bind, pure_eq_ok]
  rw [Parsed.ofLen, if_neg nonzero]
  rfl

/-- **What a server advertises is what the client comes to know**, wherever the message lies in
what is read: the handshake is done without an error, the specs are the names and versions in
their order, and `getSpec` finds the first of a name. -/
theorem advertised_round_trip {impls : Server.Impls} (fits : Fitting impls) {data : View}
    {offset : Nat} (holds : data.Holds offset (advertisement impls).data)
    (inside : offset + (advertisement impls).data.length ≤ data.size) (small : data.size < 2 ^ 63)
    (fds : List Fd) {client : CClientSocket} (fresh : client.serverSpecs = []) :
    ∃ received len next,
      parseClient .ample data fds offset = some (.ok (.message received len, fds)) ∧
      client.receive received = some (.ok (next, none)) ∧
      next = { client with serverSpecs := impls.map told, handshakeDone := true } ∧
      ∀ name, next.getSpec name = (impls.find? fun p => p.protocol.specName = name).map told := by
  refine ⟨_, _, _, fits.read holds inside small fds, rfl, ?_, ?_⟩
  · rw [CClientSocket.takeServerSpecs, addServerSpecs_advertised, fresh, List.nil_append]
  · apply getSpec_told
    rw [CClientSocket.takeServerSpecs, addServerSpecs_advertised, fresh, List.nil_append]

/-- A protocol that is called `@`, in the last version. -/
def loud : Server.Impls :=
  [⟨{ specName := [0x40], specVer := 0xffffffff, objects := [] }, []⟩]

theorem advertised_loud :
    loud.map CServerClient.advertised =
      [[0x40, 0x40, 0x34, 0x32, 0x39, 0x34, 0x39, 0x36, 0x37, 0x32, 0x39, 0x35]] := by
  have written : text s!"@{(0xffffffff : UInt32)}" =
      [0x40, 0x34, 0x32, 0x39, 0x34, 0x39, 0x36, 0x37, 0x32, 0x39, 0x35] := by
    rw [text_eq]
    rfl
  show [_ ++ text s!"@{(0xffffffff : UInt32)}"] = _
  rw [written]
  rfl

/-- What is read has another byte in front of the message. -/
def loudRead : ByteVec where
  data := 0x09 :: (advertisement loud).data
  length_lt := by
    rw [advertisement, advertised_loud]
    decide

/-- It comes through. -/
theorem advertised_round_trip_loud :
    ∃ received len next,
      parseClient .ample loudRead.strict [] 1 = some (.ok (.message received len, [])) ∧
      CClientSocket.opened.receive received = some (.ok (next, none)) ∧
      next = { CClientSocket.opened with serverSpecs := loud.map told, handshakeDone := true } ∧
      ∀ name, next.getSpec name = (loud.find? fun p => p.protocol.specName = name).map told := by
  have fits : Fitting loud := by
    refine ⟨by decide, fun p offered => ?_⟩
    have listed : CServerClient.advertised p ∈ loud.map CServerClient.advertised :=
      List.mem_map_of_mem offered
    rw [advertised_loud] at listed
    rw [List.mem_singleton.mp listed]
    decide
  have split : loudRead.data = [0x09] ++ (advertisement loud).data ++ [] := by
    rw [List.append_nil]
    rfl
  have inside : 1 + (advertisement loud).data.length ≤ loudRead.strict.size := by
    rw [ByteVec.size_strict, loudRead, List.length_cons, Nat.add_comm]
  exact advertised_round_trip fits (ByteVec.holds_strict split) inside loudRead.length_lt [] rfl

end Hyprwire.Link
