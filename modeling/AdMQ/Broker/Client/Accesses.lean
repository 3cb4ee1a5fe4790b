import AdMQ.Broker.Client.Buffer
import AdMQ.Core.Memory
import AdMQ.Core.Scan
import AdMQ.Core.Transition

/-!
# Memory accesses of the receive buffer

`client_buffer_append` and `client_buffer_extract_line` on plain memory: an array of
arbitrary bytes and an `int` beside it, with every access checked. Started on a new
client, no sequence of calls makes an access outside of the arrays, and the memory is
always a buffer in the sense of the checked type, on which the calls do the same.
-/

namespace AdMQ

open Core

/-- The fields `buffer` and `buffer_len` as they lie in memory. -/
structure RawBuffer where
  buffer : List UInt8
  bufferLen : Int

/-- The length is compared as a `size_t`, to which a negative number is huge. -/
def overflows (n : Int) : Prop := n < 0 ∨ (bufferSize : Int) ≤ n

instance (n : Int) : Decidable (overflows n) := inferInstanceAs (Decidable (_ ∨ _))

/-- `client_buffer_append`; `none` if an access falls outside of the array. -/
def RawBuffer.append (c : RawBuffer) (data : List UInt8) : Option RawBuffer :=
  if overflows (c.bufferLen + data.length) then some { c with bufferLen := 0 }
  else do
    let start ← c.bufferLen.toNat?
    let buffer ← memcpy c.buffer start data
    let newLen := c.bufferLen + data.length
    let stop ← newLen.toNat?
    let buffer ← store buffer stop 0
    some ⟨buffer, newLen⟩

/-- What an extraction returns, leaves in the buffer and leaves in the message. -/
structure Extraction where
  found : Bool
  rest : RawBuffer
  outMessage : List UInt8

/-- The line is copied out and terminated. -/
def copyMessage (buffer outMessage : List UInt8) (copyLen : Int) : Option (List UInt8) := do
  let n ← copyLen.toNat?
  let copied ← loadString n buffer
  let outMessage ← strncpy outMessage copied n
  store outMessage n 0

/-- The bytes behind the line, if there are any, are moved to the front. -/
def moveToFront (buffer : List UInt8) (bytesToRemove : Nat) (remainingBytes : Int) :
    Option (List UInt8) :=
  if 0 < remainingBytes then memmove buffer 0 bytesToRemove remainingBytes.toNat else some buffer

/-- They are terminated again. -/
def removeFront (buffer : List UInt8) (bytesToRemove : Nat) (remainingBytes : Int) :
    Option (List UInt8) := do
  let moved ← moveToFront buffer bytesToRemove remainingBytes
  let stop ← remainingBytes.toNat?
  store moved stop 0

/-- `client_buffer_extract_line`; `none` if an access falls outside of an array. -/
def RawBuffer.extractLine (c : RawBuffer) (outMessage : List UInt8) (maxLen : Int) :
    Option Extraction :=
  if c.bufferLen = 0 then some ⟨false, c, outMessage⟩
  else
    match strchr newline c.buffer with
    | none => none
    | some none => some ⟨false, c, outMessage⟩
    | some (some msgLen) => do
      let copyLen := if (msgLen : Int) < maxLen - 1 then (msgLen : Int) else maxLen - 1
      let outMessage ← copyMessage c.buffer outMessage copyLen
      let bytesToRemove := msgLen + 1
      let remainingBytes := c.bufferLen - bytesToRemove
      let buffer ← removeFront c.buffer bytesToRemove remainingBytes
      some ⟨true, ⟨buffer, remainingBytes⟩, outMessage⟩

/-- A call on the buffer, with the array that an extraction is given. -/
inductive BufferCall where
  | append (data : List UInt8)
  | extractLine (outMessage : List UInt8) (maxLen : Int)

/-- Between 1 and 1023 bytes are appended, and the message has the size that is given for it,
which is not zero. -/
def BufferCall.Admissible : BufferCall → Prop
  | .append data => 1 ≤ data.length ∧ data.length ≤ 1023
  | .extractLine outMessage maxLen => 1 ≤ maxLen ∧ outMessage.length = maxLen

/-- The effect of a call on the buffer. -/
def RawBuffer.step (c : RawBuffer) : BufferCall → Option RawBuffer
  | .append data => c.append data
  | .extractLine outMessage maxLen => (c.extractLine outMessage maxLen).map Extraction.rest

/-- The loop `while (client_buffer_extract_line(..))` of the worker, which may change the message
in its body; `none` if an access falls outside or the loop takes more than `fuel` rounds. -/
def RawBuffer.drain (handle : List UInt8 → List UInt8) (maxLen : Int) :
    Nat → RawBuffer → List UInt8 → Option RawBuffer
  | 0, _, _ => none
  | fuel + 1, c, outMessage =>
    match c.extractLine outMessage maxLen with
    | none => none
    | some e => if e.found then drain handle maxLen fuel e.rest (handle e.outMessage)
        else some e.rest

/-- The length is that of an array in use, and the waiting bytes are terminated. -/
def RawBuffer.Within (c : RawBuffer) : Prop :=
  0 ≤ c.bufferLen ∧ c.bufferLen ≤ 2047 ∧
    (0 < c.bufferLen → c.buffer[c.bufferLen.toNat]? = some 0)

/-- The bytes left are not negative in number; a line shortens the buffer and is terminated
within the message. -/
def Extraction.Within (e : Extraction) (c : RawBuffer) (maxLen : Int) : Prop :=
  0 ≤ e.rest.bufferLen ∧ (e.found = true → e.rest.bufferLen < c.bufferLen ∧
    ∃ i : Nat, i < maxLen ∧ e.outMessage[i]? = some 0)

/-! ## The buffer that the memory holds -/

/-- A buffer as it lies in memory. -/
def ClientBuffer.raw (b : ClientBuffer) : RawBuffer := ⟨b.bytes, b.len⟩

/-- An append on memory is an append on the buffer. -/
theorem raw_append (b : ClientBuffer) (data : List UInt8) :
    b.raw.append data = some (clientBufferAppend b data).raw := by
  have hlt := b.len_lt
  have hlen := b.length_bytes
  by_cases h : bufferSize ≤ b.len + data.length
  · have hover : overflows (b.raw.bufferLen + data.length) := by
      right
      change (bufferSize : Int) ≤ (b.len : Int) + data.length
      omega
    rw [RawBuffer.append, if_pos hover, clientBufferAppend, dif_pos h]
    rfl
  · have hfits : ¬ overflows (b.raw.bufferLen + data.length) := by
      change ¬ ((b.len : Int) + data.length < 0 ∨ (bufferSize : Int) ≤ (b.len : Int) + data.length)
      omega
    have hcopy : memcpy b.bytes b.len data = some (overwrite b.bytes b.len data) :=
      memcpy_eq_some (by omega)
    have hstore : store (overwrite b.bytes b.len data) (b.len + data.length) 0 =
        some ((overwrite b.bytes b.len data).set (b.len + data.length) 0) :=
      store_eq_some (by rw [length_overwrite (by omega)]; omega) 0
    have hstart : (b.len : Int).toNat? = some b.len := rfl
    have hstop : ((b.len : Int) + data.length).toNat? = some (b.len + data.length) := rfl
    rw [RawBuffer.append, if_neg hfits, clientBufferAppend, dif_neg h]
    simp only [ClientBuffer.raw, hstart, hstop, Option.bind_eq_bind, Option.bind_some, hcopy,
      hstore]
    rfl

/-- A newline that the search finds stands among the waiting bytes. -/
theorem ClientBuffer.lt_len_of_idxOf? {b : ClientBuffer} (hlen : b.len ≠ 0) {msgLen : Nat}
    (h : (cstr b.bytes).idxOf? newline = some msgLen) :
    msgLen < b.len ∧ msgLen < (cstr b.bytes).length := by
  have hlt : msgLen < (cstr b.bytes).length :=
    (List.findIdx?_eq_some_iff_getElem.mp h).1
  refine ⟨?_, hlt⟩
  rw [ClientBuffer.cstr_bytes hlen] at hlt
  exact Nat.lt_of_lt_of_le hlt ((List.takeWhile_sublist _).length_le.trans b.length_content.le)

/-- What an extraction leaves in memory: nothing new if there is no line; otherwise the line with
its terminator in the message, and the rest of the buffer. -/
def Extraction.Shows (e : Extraction) (b : ClientBuffer) (outMessage : List UInt8) :
    Option (CStr × ClientBuffer) → Prop
  | none => e = ⟨false, b.raw, outMessage⟩
  | some (line, b') => e = ⟨true, b'.raw, line ++ 0 :: outMessage.drop (line.length + 1)⟩ ∧
      line.length < outMessage.length

/-- A copy of bytes without NUL that leaves room for the terminator. -/
theorem copyMessage_eq_some (buffer : List UInt8) {outMessage : List UInt8} {n : Nat}
    (hn : n ≤ buffer.length) (hnul : 0 ∉ buffer.take n)
    (hroom : n < outMessage.length) :
    copyMessage buffer outMessage n =
      some (buffer.take n ++ 0 :: outMessage.drop (n + 1)) := by
  have hn' : (n : Int).toNat? = some n := rfl
  have hlen : (buffer.take n).length = n := List.length_take_of_le hn
  have hpadded : padded n (buffer.take n) = buffer.take n := by
    rw [padded, hlen, Nat.sub_self, List.replicate_zero, List.append_nil, List.take_take,
      Nat.min_self]
  have hdrop : outMessage.drop n = outMessage[n] :: outMessage.drop (n + 1) :=
    List.drop_eq_getElem_cons hroom
  simp only [copyMessage, hn', Option.bind_eq_bind, Option.bind_some, loadString_eq_some hn hnul,
    strncpy_eq_some (Nat.le_of_lt hroom), hpadded, hdrop]
  rw [store_eq_some (by rw [List.length_append, List.length_cons, hlen]; omega),
    List.set_append_right _ _ hlen.le, hlen, Nat.sub_self, List.set_cons_zero]

/-- Removing a front part of the waiting bytes. -/
theorem removeFront_eq_some (b : ClientBuffer) {k : Nat} (hk : k ≤ b.len) :
    removeFront b.bytes k ((b.len : Int) - k) =
      some ((b.shifted k (b.len - k)).set (b.len - k) 0) := by
  have hlt := b.len_lt
  have hlen := b.length_bytes
  have hcast : (b.len : Int) - k = ((b.len - k : Nat) : Int) := by omega
  have hnat : ((b.len - k : Nat) : Int).toNat? = some (b.len - k) := rfl
  have hmoved : moveToFront b.bytes k ((b.len - k : Nat) : Int) =
      some (b.shifted k (b.len - k)) := by
    rw [moveToFront, ClientBuffer.shifted, Int.toNat_natCast]
    by_cases hpos : 0 < b.len - k
    · rw [if_pos (by omega), if_pos hpos, memmove_eq_some (by omega) (by omega)]
    · rw [if_neg (by omega), if_neg hpos]
  have hstore : store (b.shifted k (b.len - k)) (b.len - k) 0 =
      some ((b.shifted k (b.len - k)).set (b.len - k) 0) :=
    store_eq_some (by rw [b.length_shifted _ _ (by omega)]; omega) 0
  simp only [removeFront, hcast, hmoved, Option.bind_eq_bind, Option.bind_some, hnat, hstore]

/-- An extraction on memory is an extraction on the buffer. -/
theorem raw_extractLine (b : ClientBuffer) (outMessage : List UInt8) (maxLen : Nat)
    (hmax : 1 ≤ maxLen) (hout : outMessage.length = maxLen) :
    ∃ e, b.raw.extractLine outMessage maxLen = some e ∧
      e.Shows b outMessage (clientBufferExtractLine b maxLen) := by
  by_cases hzero : b.len = 0
  · have hraw : b.raw.bufferLen = 0 := congrArg Nat.cast hzero
    refine ⟨⟨false, b.raw, outMessage⟩, if_pos hraw, ?_⟩
    rw [clientBufferExtractLine, if_pos hzero]
    rfl
  · have hraw : ¬ b.raw.bufferLen = 0 := by
      change ¬ (b.len : Int) = 0
      omega
    have hterm : 0 ∈ b.bytes := List.mem_of_getElem? (b.terminated.resolve_left hzero)
    have hfind : strchr newline b.raw.buffer = some ((cstr b.bytes).idxOf? newline) :=
      strchr_eq_some (by decide) hterm
    rw [RawBuffer.extractLine, if_neg hraw, hfind, clientBufferExtractLine, if_neg hzero]
    cases hidx : (cstr b.bytes).idxOf? newline with
    | none => exact ⟨_, rfl, rfl⟩
    | some msgLen =>
      obtain ⟨hlt, hseen⟩ := ClientBuffer.lt_len_of_idxOf? hzero hidx
      have hlen := b.length_bytes
      have hlenLt := b.len_lt
      -- The copy ends in front of the newline, so no NUL is among its bytes.
      obtain ⟨n, hn, hcopy, hnatCopy⟩ : ∃ n : Nat, n ≤ msgLen ∧
          (if (msgLen : Int) < maxLen - 1 then (msgLen : Int) else maxLen - 1) = n ∧
          (if msgLen < maxLen - 1 then msgLen else maxLen - 1) = n := by
        by_cases hcut : msgLen < maxLen - 1
        · exact ⟨msgLen, Nat.le_refl _, if_pos (by omega), if_pos hcut⟩
        · exact ⟨maxLen - 1, by omega, (if_neg (by omega)).trans (by omega), if_neg hcut⟩
      have hroom : n < outMessage.length := by
        rw [← hnatCopy, hout]
        split <;> omega
      have hnul : 0 ∉ b.bytes.take n := by
        obtain ⟨behind, hbehind⟩ : cstr b.bytes <+: b.bytes := List.takeWhile_prefix _
        rw [← hbehind, List.take_append_of_le_length (by omega)]
        exact fun hmem => nul_notMem_cstr b.bytes (List.mem_of_mem_take hmem)
      have hmessage := copyMessage_eq_some b.bytes (by omega) hnul hroom
      have hfront := removeFront_eq_some b (k := msgLen + 1) hlt
      refine ⟨⟨true, ⟨(b.shifted (msgLen + 1) (b.len - (msgLen + 1))).set (b.len - (msgLen + 1)) 0,
        (b.len : Int) - (msgLen + 1 : Nat)⟩, b.bytes.take n ++ 0 :: outMessage.drop (n + 1)⟩,
      ?_, ?_⟩
      · simp only [ClientBuffer.raw, hcopy, hmessage, hfront, Option.bind_eq_bind, Option.bind_some]
      · have hline : (b.bytes.take n).length = n := List.length_take_of_le (by omega)
        have hrest : (b.len : Int) - (msgLen + 1 : Nat) = ((b.len - (msgLen + 1) : Nat) : Int) := by
          omega
        simp only [Extraction.Shows, hnatCopy, hline, ClientBuffer.raw, hrest, true_and]
        exact hroom

/-- An extraction succeeds and leaves a buffer and a message of the same size. -/
theorem exists_extractLine (b : ClientBuffer) {outMessage : List UInt8} {maxLen : Int}
    (hmax : 1 ≤ maxLen) (hout : outMessage.length = maxLen) :
    ∃ e, ∃ b' : ClientBuffer, b.raw.extractLine outMessage maxLen = some e ∧ e.rest = b'.raw ∧
      e.outMessage.length = outMessage.length ∧ e.Within b.raw maxLen := by
  obtain ⟨n, rfl⟩ := Int.eq_ofNat_of_zero_le (show 0 ≤ maxLen by omega)
  obtain ⟨e, he, hshows⟩ := raw_extractLine b outMessage n (by omega) (by omega)
  cases hline : clientBufferExtractLine b n with
  | none =>
    rw [hline] at hshows
    obtain rfl : e = ⟨false, b.raw, outMessage⟩ := hshows
    exact ⟨_, b, he, rfl, rfl, Int.natCast_nonneg _,
      fun hfound => absurd hfound Bool.false_ne_true⟩
  | some found =>
    obtain ⟨line, b'⟩ := found
    rw [hline] at hshows
    obtain ⟨rfl, hroom⟩ := hshows
    have hshort := len_lt_of_extractLine hline
    refine ⟨_, b', he, rfl, ?_, Int.natCast_nonneg _, fun _ => ⟨?_, line.length, ?_, ?_⟩⟩
    · simp only [List.length_append, List.length_cons, List.length_drop]
      omega
    · exact Int.ofNat_lt.mpr hshort
    · omega
    · rw [List.getElem?_append_right (Nat.le_refl _), Nat.sub_self, List.getElem?_cons_zero]

/-- Every call succeeds and leaves a buffer. -/
theorem exists_raw_step (b : ClientBuffer) {call : BufferCall} (h : call.Admissible) :
    ∃ b' : ClientBuffer, b.raw.step call = some b'.raw := by
  cases call with
  | append data => exact ⟨_, raw_append b data⟩
  | extractLine outMessage maxLen =>
    obtain ⟨e, b', he, hrest, -⟩ := exists_extractLine b h.1 h.2
    exact ⟨b', by rw [RawBuffer.step, he, Option.map_some, hrest]⟩

/-- So does every sequence of calls. -/
theorem exists_raw_run (b : ClientBuffer) {calls : List BufferCall}
    (h : ∀ call ∈ calls, call.Admissible) :
    ∃ b' : ClientBuffer, run RawBuffer.step b.raw calls = some b'.raw := by
  induction calls generalizing b with
  | nil => exact ⟨b, rfl⟩
  | cons call calls ih =>
    rw [List.forall_mem_cons] at h
    obtain ⟨b₁, hstep⟩ := exists_raw_step b h.1
    obtain ⟨b', hrun⟩ := ih b₁ h.2
    exact ⟨b', (run_cons_of_eq hstep calls).trans hrun⟩

/-- Each round of the loop shortens the buffer, so that the waiting bytes bound the rounds. -/
theorem exists_drain {handle : List UInt8 → List UInt8}
    (hhandle : ∀ message, (handle message).length = message.length) {maxLen : Int}
    (hmax : 1 ≤ maxLen) {fuel : Nat} (b : ClientBuffer) (hfuel : b.len < fuel)
    {outMessage : List UInt8} (hout : outMessage.length = maxLen) :
    ∃ c, b.raw.drain handle maxLen fuel outMessage = some c := by
  induction fuel generalizing b outMessage with
  | zero => cases hfuel
  | succ fuel ih =>
    obtain ⟨e, b', he, hrest, hlen, -, hfound⟩ := exists_extractLine b hmax hout
    rw [RawBuffer.drain]
    simp only [he]
    by_cases h : e.found = true
    · have hshort : b'.len < b.len := by
        have hlt := (hfound h).1
        rw [hrest] at hlt
        exact Int.ofNat_lt.mp hlt
      rw [if_pos h, hrest]
      exact ih b' (by omega) (by rw [hhandle, hlen, hout])
    · exact ⟨e.rest, if_neg h⟩

/-- A new client: the length is zero and the array holds whatever was there. -/
def freshBuffer (bytes : List UInt8) (h : bytes.length = bufferSize) : ClientBuffer :=
  ⟨bytes, 0, h, bufferSize_pos, Or.inl rfl⟩

/-- A buffer in memory has a length within the array and a terminator behind the waiting bytes. -/
theorem raw_within (b : ClientBuffer) : b.raw.Within := by
  have hlt : b.len < 2048 := b.len_lt
  refine ⟨Int.natCast_nonneg _, ?_, fun hpos => ?_⟩
  · change (b.len : Int) ≤ 2047
    omega
  · change 0 < (b.len : Int) at hpos
    exact b.terminated.resolve_left (by omega)

/-- Whatever a new client's array holds, every sequence of calls keeps to the arrays and leaves a
terminated buffer; the next extraction does so too, and the worker's loop ends. -/
theorem buffer_calls_within {buffer : List UInt8} (hsize : buffer.length = bufferSize)
    {calls : List BufferCall} (hcalls : ∀ call ∈ calls, call.Admissible) :
    ∃ c, run RawBuffer.step ⟨buffer, 0⟩ calls = some c ∧ c.Within ∧
      ∀ (outMessage : List UInt8) (maxLen : Int), 1 ≤ maxLen → outMessage.length = maxLen →
        (∃ e, c.extractLine outMessage maxLen = some e ∧ e.Within c maxLen) ∧
        ∀ handle : List UInt8 → List UInt8,
          (∀ message, (handle message).length = message.length) →
          ∃ c', c.drain handle maxLen (c.bufferLen.toNat + 1) outMessage = some c' := by
  obtain ⟨b, hrun⟩ := exists_raw_run (freshBuffer buffer hsize) hcalls
  refine ⟨b.raw, hrun, raw_within b, fun outMessage maxLen hmax hout => ⟨?_, ?_⟩⟩
  · obtain ⟨e, -, he, -, -, hwithin⟩ := exists_extractLine b hmax hout
    exact ⟨e, he, hwithin⟩
  · intro handle hhandle
    exact exists_drain hhandle hmax b (Nat.lt_succ_self b.len) hout

/-- Three bytes with a line among them, and a message of two bytes for it. -/
def shortCalls : List BufferCall := [.append [97, 10, 98], .extractLine [7, 7] 2]

theorem buffer_calls_within_shortCalls :
    ∃ c, run RawBuffer.step ⟨List.replicate bufferSize 9, 0⟩ shortCalls = some c ∧ c.Within ∧
      ∃ e, c.extractLine [5] 1 = some e ∧ e.Within c 1 := by
  have hcalls : ∀ call ∈ shortCalls, call.Admissible :=
    List.forall_mem_cons.mpr
      ⟨⟨by decide, by decide⟩,
        List.forall_mem_cons.mpr ⟨⟨by decide, by decide⟩, List.forall_mem_nil _⟩⟩
  obtain ⟨c, hrun, hwithin, hnext⟩ := buffer_calls_within (List.length_replicate ..) hcalls
  exact ⟨c, hrun, hwithin, (hnext [5] 1 (by decide) (by decide)).1⟩

end AdMQ
