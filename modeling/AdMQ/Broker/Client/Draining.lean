import AdMQ.Broker.Client.Framing
import AdMQ.Core.Scan

/-!
# Lines with NUL bytes

The buffer is filled by length and searched with string functions. A NUL in a line hides
its newline: the line is never found, and neither are the lines behind it, until the
buffer overflows. Draining leaves no newline behind exactly as long as every line that is
completed in the buffer is free of NUL.
-/

namespace AdMQ

open Core

/-- The condition on a sequence of chunks, with the bytes that wait in front of them: a line
with a NUL is dropped by an overflow before it is complete. -/
def NulsDropped : List UInt8 → List (List UInt8) → Prop
  | _, [] => True
  | waiting, chunk :: chunks =>
    if bufferSize ≤ waiting.length + chunk.length then NulsDropped [] chunks
    else
      (∀ l ∈ completeLines (waiting ++ chunk), 0 ∉ l) ∧
        NulsDropped (unterminated (waiting ++ chunk)) chunks

/-- A line with a NUL stays where it is, with its newline. -/
theorem newline_mem_drainLines {fuel : Nat} {b : ClientBuffer} (hfuel : b.len ≤ fuel)
    (hnul : ∃ l ∈ completeLines b.content, 0 ∈ l) : newline ∈ (drainLines fuel b).2.content := by
  generalize hc : b.content = text at hnul
  induction text using line_induction generalizing fuel b with
  | last l hl =>
    obtain ⟨m, hm, -⟩ := hnul
    rw [completeLines_last hl] at hm
    cases hm
  | line l rest hl ih =>
    obtain ⟨fuel, rfl⟩ : ∃ n, fuel = n + 1 := by
      refine ⟨fuel - 1, ?_⟩
      rw [← b.length_content, hc, List.length_append, List.length_cons] at hfuel
      omega
    by_cases hl0 : 0 ∈ l
    · -- the string functions do not see beyond the NUL
      have hseen : newline ∉ cstr (l ++ newline :: rest) := by
        obtain ⟨front, back, rfl, hfront⟩ := List.eq_append_cons_of_mem hl0
        have hcut : cstr (front ++ 0 :: back ++ newline :: rest) = front := by
          rw [List.append_assoc, cstr]
          exact takeWhile_append_stop (bne_of_notMem hfront) (by simp)
        rw [hcut]
        exact fun h => hl (List.mem_append_left _ h)
      have hnone : clientBufferExtractLine b 1024 = none :=
        clientBufferExtractLine_none (by rwa [hc]) 1024
      simp only [drainLines, hnone, hc]
      simp
    · obtain ⟨b', hextract, hb'⟩ := clientBufferExtractLine_line hl0 hl hc 1024
      have hlt := len_lt_of_extractLine hextract
      have hrest : ∃ m ∈ completeLines rest, 0 ∈ m := by
        obtain ⟨m, hm, hm0⟩ := hnul
        rw [completeLines_line hl, List.mem_cons] at hm
        rcases hm with rfl | hm
        · exact absurd hm0 hl0
        · exact ⟨m, hm, hm0⟩
      simp only [drainLines, hextract]
      exact ih (by omega) hb' hrest

/-- What a chunk that fits leaves waiting. -/
theorem newline_notMem_receive {b : ClientBuffer} {chunk : List UInt8}
    (h : b.len + chunk.length < bufferSize) :
    newline ∉ (receive b chunk).2.content ↔ ∀ l ∈ completeLines (b.content ++ chunk), 0 ∉ l := by
  rw [← content_clientBufferAppend h, receive]
  constructor
  · intro hdrained l hl h0
    exact hdrained (newline_mem_drainLines (Nat.le_refl _) ⟨l, hl, h0⟩)
  · intro hlines
    rw [(drainLines_lines (Nat.le_refl _) hlines).2]
    exact newline_notMem_unterminated _

/-- A run over chunks, from any buffer without a newline. -/
theorem newline_notMem_receiveAll (chunks : List (List UInt8)) (b : ClientBuffer)
    (hwait : newline ∉ b.content) :
    (∀ n, newline ∉ (receiveAll (chunks.take n) b).2.content) ↔ NulsDropped b.content chunks := by
  induction chunks generalizing b with
  | nil =>
    simp only [List.take_nil, receiveAll, NulsDropped]
    exact ⟨fun _ => trivial, fun _ _ => hwait⟩
  | cons chunk chunks ih =>
    -- the first chunk, and the runs behind it
    have hsplit : (∀ n, newline ∉ (receiveAll ((chunk :: chunks).take n) b).2.content) ↔
        newline ∉ (receive b chunk).2.content ∧
          ∀ n, newline ∉ (receiveAll (chunks.take n) (receive b chunk).2).2.content := by
      constructor
      · intro h
        exact ⟨h 1, fun n => h (n + 1)⟩
      · rintro ⟨-, hrest⟩ n
        cases n with
        | zero => exact hwait
        | succ n => exact hrest n
    rw [hsplit, NulsDropped, b.length_content]
    split
    next hover =>
      have hlen := (receive_overflow hover 0).2
      have hcontent : (receive b chunk).2.content = [] := by
        rw [ClientBuffer.content, hlen, List.take_zero]
      have hnil : newline ∉ (receive b chunk).2.content := by
        rw [hcontent]
        exact List.not_mem_nil
      rw [ih _ hnil, hcontent]
      simp
    next hfits =>
      have hfit : b.len + chunk.length < bufferSize := Nat.not_le.mp hfits
      rw [newline_notMem_receive hfit]
      refine and_congr_right fun hlines => ?_
      rw [ih _ ((newline_notMem_receive hfit).mpr hlines)]
      have hcontent : (receive b chunk).2.content = unterminated (b.content ++ chunk) := by
        rw [← content_clientBufferAppend hfit] at hlines ⊢
        exact (drainLines_lines (Nat.le_refl _) hlines).2
      rw [hcontent]

/-- After every chunk the extraction finds nothing more. -/
theorem extractLine_receiveAll (chunks : List (List UInt8)) {b : ClientBuffer}
    (h : clientBufferExtractLine b 1024 = none) :
    clientBufferExtractLine (receiveAll chunks b).2 1024 = none := by
  induction chunks generalizing b with
  | nil => exact h
  | cons chunk chunks ih => exact ih (extractLine_drainLines (Nat.le_refl _))

/-- For every sequence of chunks of arbitrary bytes: whenever a fresh buffer is drained after a
chunk, the extraction finds nothing more; and it leaves no newline behind after any of them if
and only if every line with a NUL is dropped by an overflow before it is complete. -/
theorem drained_iff_nulsDropped (b : ClientBuffer) (hempty : b.len = 0)
    (chunks : List (List UInt8)) :
    (∀ n, clientBufferExtractLine (receiveAll (chunks.take n) b).2 1024 = none) ∧
      ((∀ n, newline ∉ (receiveAll (chunks.take n) b).2.content) ↔ NulsDropped [] chunks) := by
  have hcontent : b.content = [] := by rw [ClientBuffer.content, hempty, List.take_zero]
  have hwait : newline ∉ b.content := by
    rw [hcontent]
    exact List.not_mem_nil
  refine ⟨fun n => extractLine_receiveAll _ (if_pos hempty), ?_⟩
  rw [newline_notMem_receiveAll chunks b hwait, hcontent]

instance decidableNulsDropped : (waiting : List UInt8) → (chunks : List (List UInt8)) →
    Decidable (NulsDropped waiting chunks)
  | _, [] => inferInstanceAs (Decidable True)
  | waiting, chunk :: chunks =>
    have := decidableNulsDropped [] chunks
    have := decidableNulsDropped (unterminated (waiting ++ chunk)) chunks
    inferInstanceAs (Decidable (if bufferSize ≤ waiting.length + chunk.length then _ else _ ∧ _))

/-- A NUL at the front of a line that is too long for the buffer. -/
def droppedChunks : List (List UInt8) :=
  [[0], List.replicate 1023 (byte 'a'), List.replicate 1024 (byte 'a'), ascii "PING\n"]

theorem drained_iff_nulsDropped_droppedChunks :
    NulsDropped [] droppedChunks ∧ newline ∉ (receiveAll droppedChunks .fresh).2.content := by
  have hdropped : NulsDropped [] droppedChunks := by decide +kernel
  exact ⟨hdropped, (drained_iff_nulsDropped .fresh rfl droppedChunks).2.mpr hdropped 4⟩

/-- Behind a line with a NUL no line is dispatched any more. -/
theorem newline_left_behind_nul :
    (receiveAll [[byte 'A', 0, newline], ascii "PING\n"] .fresh).1 = [] ∧
      (receiveAll [[byte 'A', 0, newline], ascii "PING\n"] .fresh).2.content =
        [byte 'A', 0, newline] ++ ascii "PING\n" := by
  decide +kernel

end AdMQ
