import AdMQ.Broker.Client.Buffer

/-!
# Where the lines of a client come from

The waiting bytes are always the last ones received, so a line that is taken out
has a place in the stream. Most lines start where a line of the stream starts. But
an append that overflows forgets the waiting bytes and with them that the stream
stands in the middle of a line, and the rest of that line is then taken for a line.
-/

namespace AdMQ

open Core

/-- The lines that the worker takes out of the buffer, each with its place in the stream: the
waiting bytes are the last of the `received` ones. -/
def drainLinesAt (received : Nat) : Nat → ClientBuffer → List (Nat × CStr)
  | 0, _ => []
  | fuel + 1, b =>
    match clientBufferExtractLine b 1024 with
    | none => []
    | some (line, b') => (received - b.len, line) :: drainLinesAt received fuel b'

/-- The lines taken out over a sequence of chunks, each with its place in the stream, when
`received` bytes came before. -/
def receiveAllAt : Nat → List (List UInt8) → ClientBuffer → List (Nat × CStr)
  | _, [], _ => []
  | received, chunk :: chunks, b =>
    drainLinesAt (received + chunk.length) (clientBufferAppend b chunk).len
        (clientBufferAppend b chunk) ++
      receiveAllAt (received + chunk.length) chunks (receive b chunk).2

/-- The places are only noted: the lines are those of the worker. -/
theorem map_snd_drainLinesAt (received fuel : Nat) (b : ClientBuffer) :
    (drainLinesAt received fuel b).map Prod.snd = (drainLines fuel b).1 := by
  induction fuel generalizing b with
  | zero => rfl
  | succ fuel ih =>
    rw [drainLinesAt, drainLines]
    cases clientBufferExtractLine b 1024 with
    | none => rfl
    | some next => simp [ih]

theorem map_snd_receiveAllAt (received : Nat) (chunks : List (List UInt8)) (b : ClientBuffer) :
    (receiveAllAt received chunks b).map Prod.snd = (receiveAll chunks b).1 := by
  induction chunks generalizing received b with
  | nil => rfl
  | cons chunk chunks ih =>
    rw [receiveAllAt, receiveAll, List.map_append, map_snd_drainLinesAt, ih]
    rfl

/-- A message is a line of the stream, or the first bytes of one, and starts where it does. -/
def IsLineAt (stream : List UInt8) (place : Nat) (message : CStr) : Prop :=
  (place = 0 ∨ stream[place - 1]? = some newline) ∧
  ∃ line rest, stream.drop place = line ++ newline :: rest ∧ newline ∉ line ∧
    message = line.take 1023

/-- Nothing came before, or a newline did. -/
def AtLineStart (before : List UInt8) : Prop := before = [] ∨ before.getLast? = some newline

/-- The condition on a sequence of chunks, for `waiting` bytes since the last newline or
overflow, of a line whose front is lost or not: a chunk with a newline that fits the buffer
never ends a line whose front is lost. -/
def Resynchronised : Nat → Bool → List (List UInt8) → Prop
  | _, _, [] => True
  | waiting, lost, chunk :: chunks =>
    if bufferSize ≤ waiting + chunk.length then
      Resynchronised 0 (chunk.getLast? != some newline) chunks
    else if newline ∈ chunk then
      lost = false ∧ Resynchronised (unterminated chunk).length false chunks
    else Resynchronised (waiting + chunk.length) lost chunks

/-! ## One chunk -/

theorem atLineStart_concat (before : List UInt8) : AtLineStart (before ++ [newline]) := by
  right
  simp

/-- The place behind `before` is the start of a line exactly if `before` ends one. -/
theorem atLineStart_iff (before rest : List UInt8) :
    (before.length = 0 ∨ (before ++ rest)[before.length - 1]? = some newline) ↔
      AtLineStart before := by
  rw [AtLineStart, List.length_eq_zero_iff]
  refine or_congr_right' ?_
  intro hne
  have hlt : before.length - 1 < before.length := by
    have := List.length_pos_iff.mpr hne
    omega
  rw [List.getElem?_append_left hlt, List.getLast?_eq_getElem?]

/-- All lines drained are lines of the stream, unless the first starts in the middle of one. -/
theorem drainLinesAt_iff {fuel : Nat} {b : ClientBuffer} (before after : List UInt8)
    (hfuel : b.len ≤ fuel) (hnul : 0 ∉ b.content) :
    (∀ m ∈ drainLinesAt (before.length + b.len) fuel b,
      IsLineAt (before ++ (b.content ++ after)) m.1 m.2) ↔
    (newline ∈ b.content → AtLineStart before) := by
  generalize hc : b.content = text at hnul
  induction text using line_induction generalizing fuel b before with
  | last l hl =>
    have hnone : clientBufferExtractLine b 1024 = none :=
      clientBufferExtractLine_none (by rw [hc]; exact notMem_cstr hl) 1024
    have hempty : drainLinesAt (before.length + b.len) fuel b = [] := by
      cases fuel with
      | zero => rfl
      | succ fuel => simp only [drainLinesAt, hnone]
    simp [hempty, hl]
  | line l rest hl ih =>
    simp only [List.mem_append, List.mem_cons, not_or] at hnul
    obtain ⟨fuel, b', rfl, hextract, hb', hfuel', hlen⟩ :=
      exists_firstLine hnul.1 hl hc hfuel
    -- behind the first line the drain goes on at the start of a line
    have hrest := (ih (before ++ l ++ [newline]) hfuel' hb' hnul.2.2).mpr fun _ =>
      atLineStart_concat _
    have hplace : (before ++ l ++ [newline]).length + b'.len = before.length + b.len := by
      simp only [List.length_append, List.length_singleton, hlen]
      omega
    have hstream : before ++ (l ++ newline :: rest ++ after) =
        before ++ l ++ [newline] ++ (rest ++ after) := by simp
    rw [hplace, ← hstream] at hrest
    have hfirst : IsLineAt (before ++ (l ++ newline :: rest ++ after)) before.length (l.take 1023) ↔
        AtLineStart before := by
      rw [IsLineAt, atLineStart_iff, and_iff_left]
      exact ⟨l, rest ++ after, by simp, hl, rfl⟩
    simp only [drainLinesAt, hextract, List.forall_mem_cons, Nat.add_sub_cancel, hfirst]
    constructor
    · intro h _
      exact h.1
    · intro h
      exact ⟨h (by simp), hrest⟩

/-! ## A stream -/

/-- A text with a newline is its last line behind everything else. -/
theorem exists_eq_append_unterminated {text : List UInt8} (h : newline ∈ text) :
    ∃ front, text = front ++ newline :: unterminated text := by
  induction text using line_induction with
  | last l hl => exact absurd h hl
  | line l rest hl ih =>
    rw [unterminated_line hl]
    by_cases hrest : newline ∈ rest
    · obtain ⟨front, hfront⟩ := ih hrest
      exact ⟨l ++ newline :: front, by rw [hfront]; simp [← hfront]⟩
    · exact ⟨l, by rw [unterminated_last hrest]⟩

theorem unterminated_append_newline (front last : List UInt8) :
    unterminated (front ++ newline :: last) = unterminated last := by
  rw [unterminated_append, unterminated_line (newline_notMem_unterminated front)]

/-- A chunk that does not fit leaves nothing to take out and nothing waiting. -/
theorem receive_overflow {b : ClientBuffer} {chunk : List UInt8}
    (h : bufferSize ≤ b.len + chunk.length) (received : Nat) :
    drainLinesAt received (clientBufferAppend b chunk).len (clientBufferAppend b chunk) = [] ∧
    (receive b chunk).2.len = 0 := by
  have hlen : (clientBufferAppend b chunk).len = 0 := by
    rw [clientBufferAppend, dif_pos h]
  rw [receive, hlen]
  exact ⟨rfl, hlen⟩

/-- What waits after a chunk that fits. -/
theorem content_receive {b : ClientBuffer} {chunk : List UInt8}
    (h : b.len + chunk.length < bufferSize) (hnul : 0 ∉ b.content ++ chunk) :
    (receive b chunk).2.content = unterminated (b.content ++ chunk) := by
  rw [← content_clientBufferAppend h] at hnul ⊢
  exact (drainLines_lines (Nat.le_refl _) fun l hl h0 =>
    hnul (mem_of_mem_completeLines hl h0)).2

/-- After a chunk that ends a line only its own last piece waits. -/
theorem content_receive_of_newline {b : ClientBuffer} {chunk : List UInt8}
    (h : b.len + chunk.length < bufferSize) (hnul : 0 ∉ b.content ++ chunk)
    (hnl : newline ∈ chunk) : (receive b chunk).2.content = unterminated chunk := by
  obtain ⟨front, hfront⟩ := exists_eq_append_unterminated hnl
  rw [content_receive h hnul]
  conv_lhs => rw [hfront, ← List.append_assoc, unterminated_append_newline,
    unterminated_last (newline_notMem_unterminated chunk)]

/-- The lines of a sequence of chunks are lines of the stream exactly if no line whose front was
lost is ended by a chunk that fits. -/
theorem receiveAllAt_iff (chunks : List (List UInt8)) (b : ClientBuffer) (before : List UInt8)
    (lost : Bool) (hchunks : ∀ chunk ∈ chunks, chunk ≠ []) (hwait : newline ∉ b.content)
    (hnul : 0 ∉ before ++ (b.content ++ chunks.flatten))
    (hlost : lost = false ↔ AtLineStart before) :
    (∀ m ∈ receiveAllAt (before.length + b.len) chunks b,
      IsLineAt (before ++ (b.content ++ chunks.flatten)) m.1 m.2) ↔
    Resynchronised b.len lost chunks := by
  induction chunks generalizing b before lost with
  | nil => simp [receiveAllAt, Resynchronised]
  | cons chunk chunks ih =>
    have hne := hchunks chunk (List.mem_cons_self ..)
    rw [List.flatten_cons] at hnul ⊢
    -- however the bytes received so far fall into those behind and those waiting
    have hnext : ∀ before' lost', before ++ (b.content ++ chunk) =
        before' ++ (receive b chunk).2.content → newline ∉ (receive b chunk).2.content →
        (lost' = false ↔ AtLineStart before') →
        ((∀ m ∈ receiveAllAt (before.length + b.len + chunk.length) chunks (receive b chunk).2,
          IsLineAt (before ++ (b.content ++ (chunk ++ chunks.flatten))) m.1 m.2) ↔
        Resynchronised (receive b chunk).2.len lost' chunks) := by
      intro before' lost' hsplit hwait' hlost'
      have hreceived : before.length + b.len + chunk.length =
          before'.length + (receive b chunk).2.len := by
        have hlen := congrArg List.length hsplit
        simp only [List.length_append, ClientBuffer.length_content] at hlen
        omega
      have hstream : before ++ (b.content ++ (chunk ++ chunks.flatten)) =
          before' ++ ((receive b chunk).2.content ++ chunks.flatten) := by
        rw [← List.append_assoc b.content, ← List.append_assoc, hsplit, List.append_assoc]
      rw [hreceived, hstream]
      rw [hstream] at hnul
      exact ih _ _ _ (fun c hc => hchunks c (List.mem_cons_of_mem _ hc)) hwait' hnul hlost'
    rw [receiveAllAt, List.forall_mem_append, Resynchronised]
    split
    next hover =>
      obtain ⟨hnone, hlen⟩ := receive_overflow hover (before.length + b.len + chunk.length)
      have hcontent : (receive b chunk).2.content = [] := by
        rw [ClientBuffer.content, hlen, List.take_zero]
      have hlast : AtLineStart (before ++ (b.content ++ chunk)) ↔
          chunk.getLast? = some newline := by
        simp [AtLineStart, hne]
      rw [hnone, hnext (before ++ (b.content ++ chunk)) (chunk.getLast? != some newline)
        (by rw [hcontent, List.append_nil]) (by simp [hcontent]) (by rw [hlast]; simp), hlen]
      simp
    next hfits =>
      have hfit : b.len + chunk.length < bufferSize := Nat.not_le.mp hfits
      have hnulText : 0 ∉ b.content ++ chunk := by
        intro h0
        apply hnul
        rw [← List.append_assoc b.content]
        exact List.mem_append_right _ (List.mem_append_left _ h0)
      have hcontent := content_receive hfit hnulText
      have happend := content_clientBufferAppend hfit
      have hlen : (clientBufferAppend b chunk).len = b.len + chunk.length := by
        rw [← ClientBuffer.length_content, happend, List.length_append, b.length_content]
      have hdrain := drainLinesAt_iff before chunks.flatten (b := clientBufferAppend b chunk)
        (Nat.le_refl _) (by rwa [happend])
      rw [happend, hlen, ← Nat.add_assoc, List.append_assoc, ← hlost] at hdrain
      rw [hlen, hdrain]
      split
      next hnl =>
        obtain ⟨front, hfront⟩ := exists_eq_append_unterminated hnl
        have hlast := content_receive_of_newline hfit hnulText hnl
        rw [hnext (before ++ b.content ++ front ++ [newline]) false
          (by conv_lhs => rw [hfront]
              rw [hlast]
              simp)
          (by rw [hlast]; exact newline_notMem_unterminated chunk)
          ⟨fun _ => atLineStart_concat _, fun _ => rfl⟩, ← ClientBuffer.length_content, hlast]
        simp [hnl]
      next hnl =>
        have hall : (receive b chunk).2.content = b.content ++ chunk := by
          rw [hcontent, unterminated_last (by simp [hwait, hnl])]
        rw [hnext before lost (by rw [hall]) (by simp [hall, hwait, hnl]) hlost,
          ← ClientBuffer.length_content, hall, List.length_append, b.length_content]
        simp [hwait, hnl]

/-- For every stream without NUL and every way of cutting it into chunks that fit one read: the
lines that a fresh buffer hands out are all lines of the stream, or the first bytes of one, that
start where a line of the stream starts, exactly if the chunks are resynchronised after each
overflow. -/
theorem lines_start_at_lines_iff (b : ClientBuffer) (hempty : b.len = 0) (stream : List UInt8)
    (hnul : 0 ∉ stream) (chunks : List (List UInt8)) (hcut : chunks.flatten = stream)
    (hchunks : ∀ chunk ∈ chunks, 1 ≤ chunk.length ∧ chunk.length ≤ 1023) :
    (receiveAllAt 0 chunks b).map Prod.snd = (receiveAll chunks b).1 ∧
    ((∀ place message, (place, message) ∈ receiveAllAt 0 chunks b →
      IsLineAt stream place message) ↔ Resynchronised 0 false chunks) := by
  have hcontent : b.content = [] := by rw [ClientBuffer.content, hempty, List.take_zero]
  have hstream : [] ++ (b.content ++ chunks.flatten) = stream := by
    rw [hcontent, hcut, List.nil_append, List.nil_append]
  have hne : ∀ chunk ∈ chunks, chunk ≠ [] := by
    intro chunk hmem
    exact List.length_pos_iff.mp (hchunks chunk hmem).1
  have hiff := receiveAllAt_iff chunks b [] false hne (by simp [hcontent]) (by rwa [hstream])
    (by simp [AtLineStart])
  rw [hstream, hempty] at hiff
  refine ⟨map_snd_receiveAllAt 0 chunks b, ?_⟩
  rw [← hiff]
  exact ⟨fun h m hm => h m.1 m.2 hm, fun h place message hm => h (place, message) hm⟩

/-! ## Overflows -/

instance decidableResynchronised : (waiting : Nat) → (lost : Bool) →
    (chunks : List (List UInt8)) → Decidable (Resynchronised waiting lost chunks)
  | _, _, [] => inferInstanceAs (Decidable True)
  | waiting, lost, chunk :: chunks =>
    have := decidableResynchronised 0 (chunk.getLast? != some newline) chunks
    have := decidableResynchronised (unterminated chunk).length false chunks
    have := decidableResynchronised (waiting + chunk.length) lost chunks
    inferInstanceAs (Decidable (if bufferSize ≤ waiting + chunk.length then _
      else if newline ∈ chunk then _ ∧ _ else _))

/-- Chunks that fill the buffer without a newline. -/
def fillingChunks : List (List UInt8) :=
  [List.replicate 1023 (byte 'a'), List.replicate 1023 (byte 'a')]

/-- The overflowing chunk is the end of the long line. -/
def endedChunks : List (List UInt8) := fillingChunks ++ [ascii "aa\n", ascii "PING\n"]

/-- The long line goes on behind the overflow. -/
def continuedChunks : List (List UInt8) := fillingChunks ++ [ascii "aa", ascii "SET k v\n"]

theorem lines_start_at_lines_iff_endedChunks :
    Resynchronised 0 false endedChunks ∧
    ∀ place message, (place, message) ∈ receiveAllAt 0 endedChunks .fresh →
      IsLineAt endedChunks.flatten place message := by
  have hnul : 0 ∉ endedChunks.flatten := by decide +kernel
  have hchunks : ∀ chunk ∈ endedChunks, 1 ≤ chunk.length ∧ chunk.length ≤ 1023 := by
    decide +kernel
  have hiff := lines_start_at_lines_iff .fresh rfl endedChunks.flatten hnul endedChunks rfl hchunks
  refine ⟨?_, hiff.2.mpr ?_⟩
  · decide +kernel
  · decide +kernel

/-- The end of the line is handed out as a command. -/
theorem command_inside_line_continuedChunks :
    0 ∉ continuedChunks.flatten ∧
    (∀ chunk ∈ continuedChunks, 1 ≤ chunk.length ∧ chunk.length ≤ 1023) ∧
    (receiveAll continuedChunks .fresh).1 = [ascii "SET k v"] ∧
    receiveAllAt 0 continuedChunks .fresh = [(2048, ascii "SET k v")] ∧
    continuedChunks.flatten[2048 - 1]? = some (byte 'a') ∧
    ∀ line ∈ completeLines continuedChunks.flatten, line.take 1023 ≠ ascii "SET k v" := by
  decide +kernel

end AdMQ
