import AdMQ.Core.Block
import AdMQ.Core.CString

/-!
# The receive buffer of a client

`client_buffer_append` copies what was read behind the bytes that are waiting,
and `client_buffer_extract_line` cuts the first line off. The array always holds
a terminator behind the waiting bytes, except that an overflow only resets the
length; then the length is zero and nothing is read before the next append.
However a stream is cut into chunks, the worker gets exactly its lines.
-/

namespace AdMQ

open Core

/-- `sizeof(c->buffer)`. -/
def bufferSize : Nat := 2048

theorem bufferSize_pos : 0 < bufferSize := by decide

theorem length_zeroBytes : (List.replicate bufferSize (0 : UInt8)).length = bufferSize :=
  List.length_replicate

/-- The fields `buffer` and `buffer_len` of a client. -/
structure ClientBuffer where
  /-- The whole array. -/
  bytes : List UInt8
  /-- `buffer_len`. -/
  len : Nat
  length_bytes : bytes.length = bufferSize
  len_lt : len < bufferSize
  /-- The waiting bytes are followed by a terminator. -/
  terminated : len = 0 ∨ bytes[len]? = some 0
  deriving DecidableEq

/-- The bytes that are waiting. -/
def ClientBuffer.content (b : ClientBuffer) : List UInt8 := b.bytes.take b.len

/-- `client_buffer_append`: what does not fit is dropped together with the waiting bytes. -/
def clientBufferAppend (b : ClientBuffer) (data : List UInt8) : ClientBuffer :=
  if h : bufferSize ≤ b.len + data.length then
    { b with len := 0, len_lt := bufferSize_pos, terminated := Or.inl rfl }
  else
    have hlen : (overwrite b.bytes b.len data).length = bufferSize := by
      rw [length_overwrite (by rw [b.length_bytes]; omega), b.length_bytes]
    { bytes := (overwrite b.bytes b.len data).set (b.len + data.length) 0
      len := b.len + data.length
      length_bytes := by rw [List.length_set, hlen]
      len_lt := by omega
      terminated := Or.inr (List.getElem?_set_self (by rw [hlen]; omega)) }

/-- The array after its first `k` bytes were removed and `n` bytes moved to the front. -/
def ClientBuffer.shifted (b : ClientBuffer) (k n : Nat) : List UInt8 :=
  if 0 < n then overwrite b.bytes 0 ((b.bytes.drop k).take n) else b.bytes

theorem ClientBuffer.length_shifted (b : ClientBuffer) (k n : Nat) (h : n ≤ bufferSize) :
    (b.shifted k n).length = bufferSize := by
  have hb := b.length_bytes
  unfold ClientBuffer.shifted
  split
  · rw [length_overwrite (by simp only [List.length_take, List.length_drop]; omega), hb]
  · exact hb

/-- `client_buffer_extract_line`: the line as it is copied out, and the buffer left. -/
def clientBufferExtractLine (b : ClientBuffer) (maxLen : Nat) : Option (CStr × ClientBuffer) :=
  if b.len = 0 then none
  else
    match (cstr b.bytes).idxOf? newline with
    | none => none
    | some msgLen =>
      let copyLen := if msgLen < maxLen - 1 then msgLen else maxLen - 1
      let bytesToRemove := msgLen + 1
      let remainingBytes := b.len - bytesToRemove
      have hlt := b.len_lt
      have hlen := b.length_shifted bytesToRemove remainingBytes (by omega)
      some (b.bytes.take copyLen,
        { bytes := (b.shifted bytesToRemove remainingBytes).set remainingBytes 0
          len := remainingBytes
          length_bytes := by rw [List.length_set, hlen]
          len_lt := by omega
          terminated := Or.inr (List.getElem?_set_self (by rw [hlen]; omega)) })

/-- The loop `while (client_buffer_extract_line(..))` of the worker, at most `fuel` times. -/
def drainLines : Nat → ClientBuffer → List CStr × ClientBuffer
  | 0, b => ([], b)
  | fuel + 1, b =>
    match clientBufferExtractLine b 1024 with
    | none => ([], b)
    | some (line, b') => (line :: (drainLines fuel b').1, (drainLines fuel b').2)

/-- What the worker does with one chunk: append it and take every line out. Each line
shortens the buffer, so its length bounds the number of lines. -/
def receive (b : ClientBuffer) (chunk : List UInt8) : List CStr × ClientBuffer :=
  drainLines (clientBufferAppend b chunk).len (clientBufferAppend b chunk)

/-- The lines taken out over a sequence of chunks, and the buffer left. -/
def receiveAll : List (List UInt8) → ClientBuffer → List CStr × ClientBuffer
  | [], b => ([], b)
  | chunk :: chunks, b =>
    ((receive b chunk).1 ++ (receiveAll chunks (receive b chunk).2).1,
      (receiveAll chunks (receive b chunk).2).2)

/-! ## The two operations on the waiting bytes -/

theorem ClientBuffer.length_content (b : ClientBuffer) : b.content.length = b.len := by
  have hlt := b.len_lt
  rw [content, List.length_take, b.length_bytes]
  omega

/-- What fits is appended to the waiting bytes. -/
theorem content_clientBufferAppend {b : ClientBuffer} {data : List UInt8}
    (h : b.len + data.length < bufferSize) :
    (clientBufferAppend b data).content = b.content ++ data := by
  have hlt := b.len_lt
  rw [clientBufferAppend, dif_neg (by omega)]
  change ((overwrite b.bytes b.len data).set (b.len + data.length) 0).take
    (b.len + data.length) = _
  rw [List.take_set_of_le (Nat.le_refl _), take_overwrite (by rw [b.length_bytes]; omega)]
  rfl

/-- The string functions see the waiting bytes up to the first NUL among them. -/
theorem ClientBuffer.cstr_bytes {b : ClientBuffer} (hlen : b.len ≠ 0) :
    cstr b.bytes = cstr b.content := by
  have hterm := b.terminated.resolve_left hlen
  obtain ⟨hlt, hzero⟩ := List.getElem?_eq_some_iff.mp hterm
  have hsplit : b.bytes = b.content ++ 0 :: b.bytes.drop (b.len + 1) := by
    rw [content, ← hzero, ← List.drop_eq_getElem_cons hlt, List.take_append_drop]
  rw [cstr, hsplit, List.takeWhile_append, cstr]
  split
  · next hall =>
    have hself := (List.takeWhile_prefix _).eq_of_length hall
    simp [hself]
  · rfl

/-- An empty buffer has no line. -/
theorem len_pos_of_extractLine {b b' : ClientBuffer} {maxLen : Nat} {line : CStr}
    (h : clientBufferExtractLine b maxLen = some (line, b')) : 0 < b.len := by
  by_contra hlen
  rw [clientBufferExtractLine, if_pos (Nat.eq_zero_of_not_pos hlen)] at h
  cases h

/-- A line shortens the buffer. -/
theorem len_lt_of_extractLine {b b' : ClientBuffer} {maxLen : Nat} {line : CStr}
    (h : clientBufferExtractLine b maxLen = some (line, b')) : b'.len < b.len := by
  have hpos := len_pos_of_extractLine h
  rw [clientBufferExtractLine, if_neg hpos.ne'] at h
  split at h
  · cases h
  · obtain ⟨-, rfl⟩ := Prod.mk.inj (Option.some.inj h)
    exact Nat.sub_lt hpos (Nat.succ_pos _)

/-- Without a newline in front of the first NUL no line is found. -/
theorem clientBufferExtractLine_none {b : ClientBuffer} (hnl : newline ∉ cstr b.content)
    (maxLen : Nat) : clientBufferExtractLine b maxLen = none := by
  by_cases hlen : b.len = 0
  · rw [clientBufferExtractLine, if_pos hlen]
  · rw [clientBufferExtractLine, if_neg hlen, ClientBuffer.cstr_bytes hlen,
      List.idxOf?_eq_none_iff.mpr hnl]

/-- The string functions see no more than there is. -/
theorem notMem_cstr {c : UInt8} {block : List UInt8} (h : c ∉ block) : c ∉ cstr block :=
  fun hmem => h ((List.takeWhile_sublist _).subset hmem)

/-- Nothing is taken out as long as the string functions see no end of a line. -/
theorem receive_eq_nil {b : ClientBuffer} {chunk : List UInt8}
    (hroom : b.len + chunk.length < bufferSize) (hnl : newline ∉ cstr (b.content ++ chunk)) :
    (receive b chunk).1 = [] := by
  rw [← content_clientBufferAppend hroom] at hnl
  rw [receive]
  cases (clientBufferAppend b chunk).len with
  | zero => rfl
  | succ fuel => rw [drainLines, clientBufferExtractLine_none hnl]

/-- Moving the waiting bytes behind the first `k` to the front leaves exactly these. -/
theorem ClientBuffer.take_shifted (b : ClientBuffer) (k : Nat) :
    (b.shifted k (b.len - k)).take (b.len - k) = b.content.drop k := by
  have hlt := b.len_lt
  have hmoved : (b.bytes.drop k).take (b.len - k) = b.content.drop k := by
    rw [content, List.drop_take]
  unfold ClientBuffer.shifted
  split
  · have hlen : ((b.bytes.drop k).take (b.len - k)).length = b.len - k := by
      rw [hmoved, List.length_drop, length_content]
    rw [hmoved] at hlen ⊢
    have ht : (overwrite b.bytes 0 (b.content.drop k)).take (0 + (b.content.drop k).length) =
        b.bytes.take 0 ++ b.content.drop k := take_overwrite (Nat.zero_le _)
    rwa [Nat.zero_add, hlen, List.take_zero, List.nil_append] at ht
  · next hn =>
    have hz : b.len - k = 0 := by omega
    rw [hz, List.take_zero, List.drop_of_length_le (by rw [length_content]; omega)]

/-- The first line is copied out, cut to the size given, and the rest keeps waiting. -/
theorem clientBufferExtractLine_line {b : ClientBuffer} {l rest : List UInt8} (hnul : 0 ∉ l)
    (hl : newline ∉ l) (hb : b.content = l ++ newline :: rest) (maxLen : Nat) :
    ∃ b', clientBufferExtractLine b maxLen = some (l.take (maxLen - 1), b') ∧
      b'.content = rest := by
  have hlen : b.len = l.length + 1 + rest.length := by
    rw [← b.length_content, hb, List.length_append, List.length_cons]
    omega
  have hseen : cstr b.content = l ++ newline :: cstr rest := by
    have hne : (newline != 0) = true := by decide
    rw [hb, cstr, List.takeWhile_append_of_pos, List.takeWhile_cons_of_pos (p := (· != 0)) hne,
      cstr]
    intro c hc
    rw [bne_iff_ne]
    rintro rfl
    exact hnul hc
  have hidx : (cstr b.content).idxOf? newline = some l.length := by
    have hnone : l.findIdx? (· == newline) = none := List.idxOf?_eq_none_iff.mpr hl
    rw [hseen, List.idxOf?, List.findIdx?_append, hnone, List.findIdx?_cons]
    simp
  have hcopy : b.bytes.take (if l.length < maxLen - 1 then l.length else maxLen - 1) =
      l.take (maxLen - 1) := by
    have htake (n : Nat) (hn : n ≤ l.length) : b.bytes.take n = l.take n := by
      have hmin : b.bytes.take n = b.content.take n := by
        rw [ClientBuffer.content, List.take_take, Nat.min_eq_left (by omega)]
      rw [hmin, hb, List.take_append_of_le_length hn]
    split
    · next hlt => rw [htake _ (Nat.le_refl _), List.take_length, List.take_of_length_le (by omega)]
    · next hge => exact htake _ (by omega)
  rw [clientBufferExtractLine, if_neg (by omega), ClientBuffer.cstr_bytes (by omega), hidx]
  refine ⟨_, congrArg some (Prod.ext hcopy rfl), ?_⟩
  change ((b.shifted (l.length + 1) (b.len - (l.length + 1))).set (b.len - (l.length + 1)) 0).take
    (b.len - (l.length + 1)) = rest
  rw [List.take_set_of_le (Nat.le_refl _), b.take_shifted, hb, List.append_cons,
    List.drop_left' (by simp)]

/-! ## Chunks -/

/-- Draining leaves no line behind. -/
theorem extractLine_drainLines {fuel : Nat} {b : ClientBuffer} (hfuel : b.len ≤ fuel) :
    clientBufferExtractLine (drainLines fuel b).2 1024 = none := by
  induction fuel generalizing b with
  | zero => exact if_pos (Nat.le_zero.mp hfuel)
  | succ fuel ih =>
    rw [drainLines]
    split
    next hnone => exact hnone
    next line b' hline =>
      have hlt := len_lt_of_extractLine hline
      exact ih (by omega)

/-- The next pass of the loop takes out the first line. -/
theorem exists_firstLine {fuel : Nat} {b : ClientBuffer} {l rest : List UInt8} (hl0 : 0 ∉ l)
    (hl : newline ∉ l) (hc : b.content = l ++ newline :: rest) (hfuel : b.len ≤ fuel) :
    ∃ n b', fuel = n + 1 ∧ clientBufferExtractLine b 1024 = some (l.take 1023, b') ∧
      b'.content = rest ∧ b'.len ≤ n ∧ b.len = l.length + 1 + b'.len := by
  obtain ⟨b', hextract, hb'⟩ := clientBufferExtractLine_line hl0 hl hc 1024
  have hlen : b.len = l.length + 1 + b'.len := by
    rw [← b.length_content, ← b'.length_content, hc, hb', List.length_append, List.length_cons]
    omega
  exact ⟨fuel - 1, b', by omega, hextract, hb', by omega, hlen⟩

/-- Draining takes out every complete line, cut to the size of the message buffer. -/
theorem drainLines_lines {fuel : Nat} {b : ClientBuffer} (hfuel : b.len ≤ fuel)
    (hnul : ∀ l ∈ completeLines b.content, 0 ∉ l) :
    (drainLines fuel b).1 = (completeLines b.content).map (List.take 1023) ∧
    (drainLines fuel b).2.content = unterminated b.content := by
  generalize hc : b.content = text at hnul
  induction text using line_induction generalizing fuel b with
  | last l hl =>
    have hnone : clientBufferExtractLine b 1024 = none :=
      clientBufferExtractLine_none (by rw [hc]; exact notMem_cstr hl) 1024
    rw [completeLines_last hl, unterminated_last hl]
    cases fuel with
    | zero => exact ⟨rfl, hc⟩
    | succ fuel =>
      simp only [drainLines, hnone]
      exact ⟨rfl, hc⟩
  | line l rest hl ih =>
    rw [completeLines_line hl] at hnul ⊢
    rw [List.forall_mem_cons] at hnul
    obtain ⟨fuel, b', rfl, hextract, hb', hfuel', -⟩ := exists_firstLine hnul.1 hl hc hfuel
    rw [unterminated_line hl]
    obtain ⟨h1, h2⟩ := ih hfuel' hb' hnul.2
    simp only [drainLines, hextract, h1, h2]
    exact ⟨rfl, trivial⟩

/-- Draining a buffer of lines that fit takes out every complete line. -/
theorem drainLines_content {fuel : Nat} {b : ClientBuffer} (hfuel : b.len ≤ fuel)
    (hnul : 0 ∉ b.content) (hlines : ∀ l ∈ completeLines b.content, l.length ≤ 1023) :
    (drainLines fuel b).1 = completeLines b.content ∧
    (drainLines fuel b).2.content = unterminated b.content := by
  obtain ⟨h1, h2⟩ := drainLines_lines hfuel fun l hl h0 => hnul (mem_of_mem_completeLines hl h0)
  refine ⟨h1.trans ?_, h2⟩
  refine (List.map_congr_left ?_).trans (List.map_id _)
  intro l hl
  exact List.take_of_length_le (hlines l hl)

/-- One chunk: the complete lines of what was waiting and what came are taken out, and what
is unterminated keeps waiting. -/
theorem receive_content {b : ClientBuffer} {chunk : List UInt8} (hwait : b.len ≤ 1023)
    (hchunk : chunk.length ≤ 1023) (hnul : 0 ∉ b.content ++ chunk)
    (hlines : ∀ l ∈ completeLines (b.content ++ chunk), l.length ≤ 1023) :
    (receive b chunk).1 = completeLines (b.content ++ chunk) ∧
    (receive b chunk).2.content = unterminated (b.content ++ chunk) := by
  have hfit : b.len + chunk.length < bufferSize := by
    change _ < 2048
    omega
  rw [← content_clientBufferAppend hfit] at hnul hlines ⊢
  exact drainLines_content (Nat.le_refl _) hnul hlines

/-- A sequence of chunks behind what is waiting. -/
theorem receiveAll_content (chunks : List (List UInt8)) {b : ClientBuffer}
    (hchunks : ∀ chunk ∈ chunks, chunk.length ≤ 1023) (hwait : newline ∉ b.content)
    (hnul : 0 ∉ b.content ++ chunks.flatten)
    (hlines : ∀ l ∈ (b.content ++ chunks.flatten).splitOn newline, l.length ≤ 1023) :
    (receiveAll chunks b).1 = completeLines (b.content ++ chunks.flatten) ∧
    (receiveAll chunks b).2.content = unterminated (b.content ++ chunks.flatten) := by
  induction chunks generalizing b with
  | nil =>
    rw [List.flatten_nil, List.append_nil, completeLines_last hwait, unterminated_last hwait]
    exact ⟨rfl, rfl⟩
  | cons chunk chunks ih =>
    have hwaitLen : b.len ≤ 1023 := by
      obtain ⟨piece, hp, hpre⟩ := exists_mem_splitOn_of_append hwait (chunk :: chunks).flatten
      rw [← b.length_content]
      exact Nat.le_trans hpre.length_le (hlines piece hp)
    rw [List.flatten_cons, ← List.append_assoc] at hnul hlines ⊢
    rw [splitOn_append] at hlines
    obtain ⟨h1, h2⟩ := receive_content hwaitLen (hchunks chunk (List.mem_cons_self ..))
      (fun hz => hnul (List.mem_append_left _ hz))
      fun l hl => hlines l (List.mem_append_left _ hl)
    have hnul' : 0 ∉ unterminated (b.content ++ chunk) ++ chunks.flatten := by
      intro hz
      rcases List.mem_append.mp hz with hz | hz
      · exact hnul (List.mem_append_left _ (mem_of_mem_unterminated hz))
      · exact hnul (List.mem_append_right _ hz)
    rw [← h2] at hnul' hlines
    obtain ⟨ih1, ih2⟩ := ih (fun c hc => hchunks c (List.mem_cons_of_mem _ hc))
      (by rw [h2]; exact newline_notMem_unterminated _) hnul'
      fun l hl => hlines l (List.mem_append_right _ hl)
    rw [completeLines_append (b.content ++ chunk), unterminated_append (b.content ++ chunk), ← h2,
      ← ih1, ← ih2, ← h1]
    exact ⟨rfl, rfl⟩

/-- For every stream without NUL whose newline-free stretches fit a line, and every way of
cutting it into chunks that fit one read, a fresh buffer yields exactly the complete lines of
the stream, whole and in order; what is left waiting is its unterminated tail, and a further
extraction finds nothing. -/
theorem receiveAll_chunks (b : ClientBuffer) (hempty : b.len = 0) (stream : List UInt8)
    (hnul : 0 ∉ stream) (hlines : ∀ l ∈ stream.splitOn newline, l.length ≤ 1023)
    (chunks : List (List UInt8)) (hcut : chunks.flatten = stream)
    (hchunks : ∀ chunk ∈ chunks, 1 ≤ chunk.length ∧ chunk.length ≤ 1023) :
    (receiveAll chunks b).1 = completeLines stream ∧
    (receiveAll chunks b).2.content = unterminated stream ∧
    clientBufferExtractLine (receiveAll chunks b).2 1024 = none := by
  have hcontent : b.content = [] := by rw [ClientBuffer.content, hempty, List.take_zero]
  have hstream : stream = b.content ++ chunks.flatten := by rw [hcontent, hcut, List.nil_append]
  rw [hstream] at hnul hlines ⊢
  obtain ⟨h1, h2⟩ := receiveAll_content chunks (fun c hc => (hchunks c hc).2) (by simp [hcontent])
    hnul hlines
  refine ⟨h1, h2, clientBufferExtractLine_none (notMem_cstr ?_) 1024⟩
  rw [h2]
  exact newline_notMem_unterminated _

/-- The buffer of a new client, before anything was received. -/
def ClientBuffer.fresh : ClientBuffer :=
  ⟨List.replicate bufferSize 0, 0, length_zeroBytes, bufferSize_pos, Or.inl rfl⟩

theorem receiveAll_chunks_small :
    (receiveAll [ascii "PI", ascii "NG\nGET a\nP"] .fresh).1 =
      completeLines (ascii "PING\nGET a\nP") ∧
    (receiveAll [ascii "PI", ascii "NG\nGET a\nP"] .fresh).2.content =
      unterminated (ascii "PING\nGET a\nP") ∧
    clientBufferExtractLine (receiveAll [ascii "PI", ascii "NG\nGET a\nP"] .fresh).2 1024 = none :=
  receiveAll_chunks .fresh rfl (ascii "PING\nGET a\nP") (by decide) (by decide)
    [ascii "PI", ascii "NG\nGET a\nP"] (by decide) (by decide)

example : completeLines (ascii "PING\nGET a\nP") = [ascii "PING", ascii "GET a"] := by decide

end AdMQ
