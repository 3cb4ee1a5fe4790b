import AdMQ.Broker.Enroll.Request
import AdMQ.Core.Atoi
import AdMQ.Core.Transition
import Mathlib.Data.Fintype.Defs
import Mathlib.Logic.Function.Basic

/-!
# Concurrent enrollments and their temporary files

The calls of `process_enrollment` by the workers share the directory `/tmp`. Each step of
a call makes at most one access to a file, and the steps of the calls interleave in any
order; the signing command is a part of the call that has started it. The names of the
files come from the descriptor, which no other call has as long as it is open, and what
an earlier call has left in them is overwritten before it is read.
-/

namespace AdMQ

open Core

/-- The contents of the files that exist. -/
abbrev Files := CStr → Option (List UInt8)

/-- `csr_filename`. -/
def csrFilename (fd : Int) : CStr := (ascii "/tmp/csr_" ++ decimal fd ++ ascii ".pem").take 63

/-- `crt_filename`. -/
def crtFilename (fd : Int) : CStr := (ascii "/tmp/crt_" ++ decimal fd ++ ascii ".pem").take 63

/-- An `int` that can be an open descriptor. -/
def IsDescriptor (fd : Int) : Prop := 0 ≤ fd ∧ fd ≤ intMax

instance (fd : Int) : Decidable (IsDescriptor fd) :=
  inferInstanceAs (Decidable (0 ≤ fd ∧ fd ≤ intMax))

/-- The next step of a call that has got a CSR. -/
inductive EnrollStage where
  | openCsr
  | writeCsr
  /-- The signing command reads its input file. -/
  | signRead
  /-- It opens its output file. -/
  | signOpen (input : List UInt8)
  /-- It writes the certificate for its input. -/
  | signWrite (input : List UInt8)
  | signFailed
  | openCrt
  | sendSuccess
  | readCrt (offset : Nat)
  | unlinkCsr
  | unlinkCrt
  /-- The call has returned, and the worker closes the descriptor. -/
  | close
  deriving DecidableEq

/-- A call under way, with what was passed to `write` on its socket. -/
structure EnrollCall where
  fd : Int
  request : List UInt8
  csr : CStr
  stage : EnrollStage
  sent : List UInt8
  /-- What the signing command has read and what it has produced; a note that nothing reads. -/
  signed : Option (List UInt8 × List UInt8)
  deriving DecidableEq

/-- The call after the checks in front of the temporary files. -/
def EnrollCall.start (fd : Int) (verify : CStr → Bool) (request : List UInt8) : EnrollCall :=
  match enrollCheck verify request with
  | .error e => ⟨fd, request, [], .close, e.text, none⟩
  | .ok csr => ⟨fd, request, csr, .openCsr, [], none⟩

/-- What a step does. -/
inductive EnrollStep where
  /-- The step goes well. -/
  | next
  /-- The signing command writes a certificate and exits with status 0. -/
  | produce (cert : List UInt8)
  /-- A file cannot be opened, or the signing command fails and leaves this in its output file. -/
  | fail (left : Option (List UInt8))
  deriving DecidableEq

/-- A write at the start of a file that was opened before; one that has been removed is lost. -/
def writeAt (files : Files) (name : CStr) (bytes : List UInt8) : Files :=
  Function.update files name ((files name).map fun old => bytes ++ old.drop bytes.length)

/-- The next block that `fread` returns. -/
def readBlock (files : Files) (name : CStr) (offset : Nat) : List UInt8 :=
  (((files name).getD []).drop offset).take 1024

/-- A step of `process_enrollment`. -/
def EnrollCall.step (files : Files) (c : EnrollCall) : EnrollStep → Option (Files × EnrollCall)
  | .next =>
    match c.stage with
    | .openCsr =>
      some (Function.update files (csrFilename c.fd) (some []), { c with stage := .writeCsr })
    | .writeCsr => some (writeAt files (csrFilename c.fd) c.csr, { c with stage := .signRead })
    | .signRead => (files (csrFilename c.fd)).map fun input =>
        (files, { c with stage := .signOpen input })
    | .signOpen input => some (Function.update files (crtFilename c.fd) (some []),
        { c with stage := .signWrite input })
    | .signWrite _ => none
    | .signFailed => some (Function.update files (csrFilename c.fd) none,
        { c with stage := .close, sent := c.sent ++ EnrollError.signingFailed.text })
    | .openCrt => (files (crtFilename c.fd)).map fun _ => (files, { c with stage := .sendSuccess })
    | .sendSuccess => some (files, { c with stage := .readCrt 0, sent := c.sent ++ successLine })
    | .readCrt offset =>
      if readBlock files (crtFilename c.fd) offset = [] then
        some (files, { c with stage := .unlinkCsr })
      else some (files, { c with
        stage := .readCrt (offset + (readBlock files (crtFilename c.fd) offset).length)
        sent := c.sent ++ readBlock files (crtFilename c.fd) offset })
    | .unlinkCsr =>
      some (Function.update files (csrFilename c.fd) none, { c with stage := .unlinkCrt })
    | .unlinkCrt =>
      some (Function.update files (crtFilename c.fd) none, { c with stage := .close })
    | .close => none
  | .produce cert =>
    match c.stage with
    | .signWrite input => some (writeAt files (crtFilename c.fd) cert,
        { c with stage := .openCrt, signed := some (input, cert) })
    | _ => none
  | .fail left =>
    match c.stage with
    | .openCsr =>
      some (files, { c with stage := .close, sent := c.sent ++ EnrollError.csrWrite.text })
    | .signRead | .signOpen _ | .signWrite _ =>
      some (Function.update files (crtFilename c.fd) left, { c with stage := .signFailed })
    | .openCrt =>
      some (files, { c with stage := .unlinkCsr, sent := c.sent ++ EnrollError.crtRead.text })
    | _ => none

/-- The files and the calls of the workers. -/
structure EnrollState (ι : Type*) where
  files : Files
  calls : ι → Option EnrollCall

/-- What a worker does. -/
inductive EnrollAction (ι : Type*) where
  /-- It takes a request from a lobby socket; the name server answers in its own way. -/
  | start (i : ι) (fd : Int) (verify : CStr → Bool) (request : List UInt8)
  | step (i : ι) (a : EnrollStep)
  /-- It closes the descriptor. -/
  | close (i : ι)

/-- The request has the CSR that the call works with. -/
def EnrollCall.HasCsr (c : EnrollCall) : Prop :=
  ∃ hostname, enrollment? c.request = some (hostname, c.csr)

/-- The answer is an error, or what the command has produced from the CSR of the request. -/
def EnrollCall.Answered (c : EnrollCall) : Prop :=
  (∃ e : EnrollError, c.sent = e.text) ∨
    c.HasCsr ∧ ∃ cert, c.signed = some (c.csr, cert) ∧ c.sent = successLine ++ cert

/-- What is known about a call and its files at each stage. -/
def EnrollCall.Holds (files : Files) (c : EnrollCall) : Prop :=
  match c.stage with
  | .openCsr | .signFailed => c.HasCsr ∧ c.sent = []
  | .writeCsr => c.HasCsr ∧ c.sent = [] ∧ files (csrFilename c.fd) = some []
  | .signRead => c.HasCsr ∧ c.sent = [] ∧ files (csrFilename c.fd) = some c.csr
  | .signOpen input => c.HasCsr ∧ c.sent = [] ∧ input = c.csr
  | .signWrite input =>
    c.HasCsr ∧ c.sent = [] ∧ input = c.csr ∧ files (crtFilename c.fd) = some []
  | .openCrt | .sendSuccess => c.HasCsr ∧ c.sent = [] ∧
      ∃ cert, c.signed = some (c.csr, cert) ∧ files (crtFilename c.fd) = some cert
  | .readCrt offset => c.HasCsr ∧ ∃ cert, c.signed = some (c.csr, cert) ∧
      files (crtFilename c.fd) = some cert ∧ c.sent = successLine ++ cert.take offset
  | .unlinkCsr | .unlinkCrt | .close => c.Answered

section Workers

variable {ι : Type*} [DecidableEq ι]

/-- A step of one of the workers. -/
def EnrollState.step (s : EnrollState ι) : EnrollAction ι → Option (EnrollState ι)
  | .start i fd verify request =>
    match s.calls i with
    | some _ => none
    | none => some { s with calls := Function.update s.calls i (some (.start fd verify request)) }
  | .step i a =>
    match s.calls i with
    | none => none
    | some c => (c.step s.files a).map fun r => ⟨r.1, Function.update s.calls i (some r.2)⟩
  | .close i =>
    match s.calls i with
    | none => none
    | some c =>
      if c.stage = .close then some { s with calls := Function.update s.calls i none } else none

/-- A lobby socket has a descriptor that no call under way has: it is closed before its number is
used again. -/
def EnrollState.Admits (s : EnrollState ι) : EnrollAction ι → Prop
  | .start _ fd _ _ => IsDescriptor fd ∧ ∀ j, ∀ c ∈ s.calls j, c.fd ≠ fd
  | _ => True

instance [Fintype ι] (s : EnrollState ι) : (a : EnrollAction ι) → Decidable (s.Admits a)
  | .start _ fd _ _ =>
    inferInstanceAs (Decidable (IsDescriptor fd ∧ ∀ j, ∀ c ∈ s.calls j, c.fd ≠ fd))
  | .step .. | .close _ => .isTrue trivial

/-- No call is under way, and the files are as earlier ones have left them. -/
def EnrollState.idle (files : Files) : EnrollState ι := ⟨files, fun _ => none⟩

end Workers

/-! ## The names of the files -/

/-- A name of at most nine bytes, a descriptor and the ending fit the array of the name. -/
theorem take_filename {fd : Int} (h : IsDescriptor fd) {name : CStr} (hname : name.length = 9) :
    (name ++ decimal fd ++ ascii ".pem").take 63 = name ++ decimal fd ++ ascii ".pem" := by
  obtain ⟨n, rfl⟩ := Int.eq_ofNat_of_zero_le h.1
  have hdigits : (decimal (n : Int)).length ≤ 10 := length_decimal_le (Int.ofNat_le.mp h.2)
  have hending : (ascii ".pem").length = 4 := by decide
  refine List.take_of_length_le ?_
  rw [List.length_append, List.length_append, hname, hending]
  omega

theorem fd_eq_of_filename {fd fd' : Int} {name : CStr}
    (h : name ++ decimal fd ++ ascii ".pem" = name ++ decimal fd' ++ ascii ".pem") : fd = fd' :=
  decimal_injective (List.append_cancel_left (List.append_cancel_right h))

theorem csrFilename_ne {fd fd' : Int} (h : IsDescriptor fd) (h' : IsDescriptor fd')
    (hne : fd ≠ fd') : csrFilename fd ≠ csrFilename fd' := by
  rw [csrFilename, csrFilename, take_filename h (by decide), take_filename h' (by decide)]
  exact fun heq => hne (fd_eq_of_filename heq)

theorem crtFilename_ne {fd fd' : Int} (h : IsDescriptor fd) (h' : IsDescriptor fd')
    (hne : fd ≠ fd') : crtFilename fd ≠ crtFilename fd' := by
  rw [crtFilename, crtFilename, take_filename h (by decide), take_filename h' (by decide)]
  exact fun heq => hne (fd_eq_of_filename heq)

theorem csrFilename_ne_crtFilename (fd fd' : Int) : csrFilename fd ≠ crtFilename fd' := by
  intro heq
  have hfront := congrArg (List.take 9) heq
  rw [csrFilename, crtFilename, List.take_take, List.take_take, List.append_assoc,
    List.append_assoc] at hfront
  rw [List.take_left' (by decide), List.take_left' (by decide)] at hfront
  exact absurd hfront (by decide)

/-! ## One call -/

namespace EnrollCall

variable {files files' : Files} {c c' : EnrollCall} {a : EnrollStep}

/-- The step keeps the descriptor and every file but the two of the call. -/
def Keeps (files : Files) (c : EnrollCall) (r : Files × EnrollCall) : Prop :=
  r.2.fd = c.fd ∧
    ∀ name, name ≠ csrFilename c.fd → name ≠ crtFilename c.fd → r.1 name = files name

theorem keeps_of_fd (hfd : c'.fd = c.fd) : c.Keeps files (files, c') := ⟨hfd, fun _ _ _ => rfl⟩

theorem keeps_csr (hfd : c'.fd = c.fd) (v : Option (List UInt8)) :
    c.Keeps files (Function.update files (csrFilename c.fd) v, c') :=
  ⟨hfd, fun _ hcsr _ => Function.update_of_ne hcsr v files⟩

theorem keeps_crt (hfd : c'.fd = c.fd) (v : Option (List UInt8)) :
    c.Keeps files (Function.update files (crtFilename c.fd) v, c') :=
  ⟨hfd, fun _ _ hcrt => Function.update_of_ne hcrt v files⟩

/-- A step touches only the two files of the call. -/
theorem step_keeps {r : Files × EnrollCall} (h : c.step files a = some r) : c.Keeps files r := by
  cases a with
  | next =>
    rw [step] at h
    split at h
    · exact Option.some.inj h ▸ keeps_csr rfl _
    · exact Option.some.inj h ▸ keeps_csr rfl _
    · obtain ⟨input, -, rfl⟩ := Option.map_eq_some_iff.mp h
      exact keeps_of_fd rfl
    · exact Option.some.inj h ▸ keeps_crt rfl _
    · cases h
    · exact Option.some.inj h ▸ keeps_csr rfl _
    · obtain ⟨cert, -, rfl⟩ := Option.map_eq_some_iff.mp h
      exact keeps_of_fd rfl
    · exact Option.some.inj h ▸ keeps_of_fd rfl
    · split at h
      · exact Option.some.inj h ▸ keeps_of_fd rfl
      · exact Option.some.inj h ▸ keeps_of_fd rfl
    · exact Option.some.inj h ▸ keeps_csr rfl _
    · exact Option.some.inj h ▸ keeps_crt rfl _
    · cases h
  | produce cert =>
    rw [step] at h
    split at h
    · exact Option.some.inj h ▸ keeps_crt rfl _
    · cases h
  | fail left =>
    rw [step] at h
    split at h
    · exact Option.some.inj h ▸ keeps_of_fd rfl
    · exact Option.some.inj h ▸ keeps_crt rfl _
    · exact Option.some.inj h ▸ keeps_crt rfl _
    · exact Option.some.inj h ▸ keeps_crt rfl _
    · exact Option.some.inj h ▸ keeps_of_fd rfl
    · cases h

/-- What is known about a call depends on its own two files. -/
theorem Holds.congr (h : c.Holds files)
    (hcsr : files' (csrFilename c.fd) = files (csrFilename c.fd))
    (hcrt : files' (crtFilename c.fd) = files (crtFilename c.fd)) : c.Holds files' := by
  unfold Holds at h ⊢
  cases hstage : c.stage <;> simp only [hstage, hcsr, hcrt] at h ⊢ <;> exact h

theorem writeAt_empty {name : CStr} (h : files name = some []) (bytes : List UInt8) :
    writeAt files name bytes name = some bytes := by
  rw [writeAt, Function.update_self, h]
  simp

theorem readBlock_eq {name : CStr} {cert : List UInt8} (h : files name = some cert)
    (offset : Nat) : readBlock files name offset = (cert.drop offset).take 1024 := by
  rw [readBlock, h]
  rfl

/-- An empty block is the end of the file. -/
theorem take_of_readBlock_eq_nil {name : CStr} {cert : List UInt8} (h : files name = some cert)
    {offset : Nat} (hend : readBlock files name offset = []) : cert.take offset = cert := by
  rw [readBlock_eq h, List.take_eq_nil_iff, List.drop_eq_nil_iff] at hend
  exact List.take_of_length_le (hend.resolve_left (by decide))

/-- A block continues what was read before. -/
theorem take_append_readBlock {name : CStr} {cert : List UInt8} (h : files name = some cert)
    (offset : Nat) : cert.take offset ++ readBlock files name offset =
      cert.take (offset + (readBlock files name offset).length) := by
  rw [readBlock_eq h, List.take_add, List.length_take, ← List.take_eq_take_min]

/-- A step keeps what is known about the call, as long as no other call touches its files. -/
theorem Holds.step {r : Files × EnrollCall} (h : c.Holds files) (hs : c.step files a = some r) :
    r.2.Holds r.1 := by
  obtain ⟨fd, request, csr, stage, sent, signed⟩ := c
  cases stage with
  | openCsr =>
    cases a with
    | next =>
      obtain rfl := Option.some.inj hs
      exact ⟨h.1, h.2, Function.update_self ..⟩
    | produce cert => cases hs
    | fail left =>
      obtain rfl := Option.some.inj hs
      exact Or.inl ⟨.csrWrite, congrArg (· ++ _) h.2⟩
  | writeCsr =>
    cases a with
    | next =>
      obtain rfl := Option.some.inj hs
      exact ⟨h.1, h.2.1, writeAt_empty h.2.2 csr⟩
    | produce cert | fail left => cases hs
  | signRead =>
    cases a with
    | next =>
      obtain ⟨input, hinput, rfl⟩ := Option.map_eq_some_iff.mp hs
      exact ⟨h.1, h.2.1, Option.some.inj (hinput.symm.trans h.2.2)⟩
    | produce cert => cases hs
    | fail left =>
      obtain rfl := Option.some.inj hs
      exact ⟨h.1, h.2.1⟩
  | signOpen input =>
    cases a with
    | next =>
      obtain rfl := Option.some.inj hs
      exact ⟨h.1, h.2.1, h.2.2, Function.update_self ..⟩
    | produce cert => cases hs
    | fail left =>
      obtain rfl := Option.some.inj hs
      exact ⟨h.1, h.2.1⟩
  | signWrite input =>
    cases a with
    | next => cases hs
    | produce cert =>
      obtain rfl := Option.some.inj hs
      obtain ⟨hcsr, hsent, rfl, hcrt⟩ := h
      exact ⟨hcsr, hsent, cert, rfl, writeAt_empty hcrt cert⟩
    | fail left =>
      obtain rfl := Option.some.inj hs
      exact ⟨h.1, h.2.1⟩
  | signFailed =>
    cases a with
    | next =>
      obtain rfl := Option.some.inj hs
      exact Or.inl ⟨.signingFailed, congrArg (· ++ _) h.2⟩
    | produce cert | fail left => cases hs
  | openCrt =>
    cases a with
    | next =>
      obtain ⟨cert, -, rfl⟩ := Option.map_eq_some_iff.mp hs
      exact h
    | produce cert => cases hs
    | fail left =>
      obtain rfl := Option.some.inj hs
      exact Or.inl ⟨.crtRead, congrArg (· ++ _) h.2.1⟩
  | sendSuccess =>
    cases a with
    | next =>
      obtain rfl := Option.some.inj hs
      obtain ⟨hcsr, rfl, cert, hsigned, hcrt⟩ := h
      exact ⟨hcsr, cert, hsigned, hcrt, rfl⟩
    | produce cert | fail left => cases hs
  | readCrt offset =>
    cases a with
    | next =>
      obtain ⟨hcsr, cert, hsigned, hcrt, hsent⟩ := h
      by_cases hend : readBlock files (crtFilename fd) offset = []
      · obtain rfl := Option.some.inj ((if_pos hend).symm.trans hs)
        refine Or.inr ⟨hcsr, cert, hsigned, hsent.trans ?_⟩
        rw [take_of_readBlock_eq_nil hcrt hend]
      · obtain rfl := Option.some.inj ((if_neg hend).symm.trans hs)
        refine ⟨hcsr, cert, hsigned, hcrt, ?_⟩
        change sent = successLine ++ cert.take offset at hsent
        change sent ++ readBlock files (crtFilename fd) offset = successLine ++
          cert.take (offset + (readBlock files (crtFilename fd) offset).length)
        rw [hsent, List.append_assoc, take_append_readBlock hcrt]
    | produce cert | fail left => cases hs
  | unlinkCsr =>
    cases a with
    | next =>
      obtain rfl := Option.some.inj hs
      exact h
    | produce cert | fail left => cases hs
  | unlinkCrt =>
    cases a with
    | next =>
      obtain rfl := Option.some.inj hs
      exact h
    | produce cert | fail left => cases hs
  | close => cases a <;> cases hs

/-- After the checks the call knows its CSR, or has answered with an error. -/
theorem holds_start (files : Files) (fd : Int) (verify : CStr → Bool) (request : List UInt8) :
    (start fd verify request).Holds files := by
  rw [start]
  cases hcheck : enrollCheck verify request with
  | error e => exact Or.inl ⟨e, rfl⟩
  | ok csr =>
    obtain ⟨hostname, henroll, -⟩ := enrollCheck_eq_ok.mp hcheck
    exact ⟨⟨hostname, henroll⟩, rfl⟩

theorem fd_start (fd : Int) (verify : CStr → Bool) (request : List UInt8) :
    (start fd verify request).fd = fd := by
  rw [start]
  cases enrollCheck verify request <;> rfl

end EnrollCall

/-! ## All calls -/

theorem EnrollError.head?_text (e : EnrollError) : e.text.head? = some (byte 'E') := by
  cases e <;> rfl

section Workers

variable {ι : Type*} {s s' : EnrollState ι}

/-- The calls have descriptors of their own, and what is known about each holds. -/
structure EnrollState.Separate (s : EnrollState ι) : Prop where
  descriptor : ∀ i c, s.calls i = some c → IsDescriptor c.fd
  distinct : ∀ i j c d, s.calls i = some c → s.calls j = some d → c.fd = d.fd → i = j
  holds : ∀ i c, s.calls i = some c → c.Holds s.files

/-- The step of a worker keeps what is known about the call of another one. -/
theorem EnrollState.Separate.holds_of_keeps (hs : s.Separate) {i j : ι} (hij : j ≠ i)
    {c d : EnrollCall} (hc : s.calls i = some c) (hd : s.calls j = some d)
    {r : Files × EnrollCall} (hkeeps : c.Keeps s.files r) : d.Holds r.1 := by
  have hci := hs.descriptor i c hc
  have hdj := hs.descriptor j d hd
  have hne : d.fd ≠ c.fd := fun heq => hij (hs.distinct j i d c hd hc heq)
  refine (hs.holds j d hd).congr ?_ ?_
  · exact hkeeps.2 _ (csrFilename_ne hdj hci hne) (csrFilename_ne_crtFilename _ _)
  · exact hkeeps.2 _ (csrFilename_ne_crtFilename _ _).symm (crtFilename_ne hdj hci hne)

theorem separate_idle (files : Files) : (EnrollState.idle files : EnrollState ι).Separate :=
  ⟨fun _ _ hc => (nomatch hc), fun _ _ _ _ hc => (nomatch hc), fun _ _ hc => (nomatch hc)⟩

variable [DecidableEq ι]

/-- A call with a descriptor of its own takes the place of the worker's former one. -/
theorem EnrollState.Separate.update (hs : s.Separate) {i : ι} {files : Files} {c : EnrollCall}
    (hfd : IsDescriptor c.fd) (hfresh : ∀ j d, j ≠ i → s.calls j = some d → d.fd ≠ c.fd)
    (hown : c.Holds files) (hothers : ∀ j d, j ≠ i → s.calls j = some d → d.Holds files) :
    (⟨files, Function.update s.calls i (some c)⟩ : EnrollState ι).Separate := by
  have hcases (j : ι) (d : EnrollCall) (hd : Function.update s.calls i (some c) j = some d) :
      (j = i ∧ d = c) ∨ (j ≠ i ∧ s.calls j = some d) := by
    by_cases hj : j = i
    · subst hj
      rw [Function.update_self, Option.some.injEq] at hd
      exact Or.inl ⟨rfl, hd.symm⟩
    · rw [Function.update_of_ne hj] at hd
      exact Or.inr ⟨hj, hd⟩
  refine ⟨fun j d hd => ?_, fun j k d e hd he heq => ?_, fun j d hd => ?_⟩
  · rcases hcases j d hd with ⟨-, rfl⟩ | ⟨-, hd⟩
    · exact hfd
    · exact hs.descriptor j d hd
  · rcases hcases j d hd with ⟨hj, rfl⟩ | ⟨hj, hd'⟩ <;>
      rcases hcases k e he with ⟨hk, rfl⟩ | ⟨hk, he'⟩
    · exact hj.trans hk.symm
    · exact absurd heq.symm (hfresh k e hk he')
    · exact absurd heq (hfresh j d hj hd')
    · exact hs.distinct j k d e hd' he' heq
  · rcases hcases j d hd with ⟨-, rfl⟩ | ⟨hj, hd⟩
    · exact hown
    · exact hothers j d hj hd

/-- Every step of every worker keeps the calls apart. -/
theorem EnrollState.Separate.step (hs : s.Separate) {a : EnrollAction ι} (hok : s.Admits a)
    (h : s.step a = some s') : s'.Separate := by
  cases a with
  | start i fd verify request =>
    rw [EnrollState.step] at h
    split at h
    · cases h
    · next hidle =>
      obtain rfl := Option.some.inj h
      have hfd := EnrollCall.fd_start fd verify request
      refine hs.update (hfd.symm ▸ hok.1) (fun j d _ hd => ?_)
        (EnrollCall.holds_start ..) fun j d _ hd => hs.holds j d hd
      rw [hfd]
      exact hok.2 j d hd
  | step i a =>
    rw [EnrollState.step] at h
    split at h
    · cases h
    · next c hc =>
      obtain ⟨r, hr, rfl⟩ := Option.map_eq_some_iff.mp h
      have hkeeps := EnrollCall.step_keeps hr
      refine hs.update (hkeeps.1.symm ▸ hs.descriptor i c hc) (fun j d hj hd heq => ?_)
        ((hs.holds i c hc).step hr) fun j d hj hd => hs.holds_of_keeps hj hc hd hkeeps
      exact hj (hs.distinct j i d c hd hc (heq.trans hkeeps.1))
  | close i =>
    rw [EnrollState.step] at h
    split at h
    · cases h
    · split at h
      · obtain rfl := Option.some.inj h
        have hstill (j : ι) (d : EnrollCall)
            (hd : Function.update s.calls i none j = some d) : s.calls j = some d := by
          by_cases hj : j = i
          · subst hj
            rw [Function.update_self] at hd
            cases hd
          · rwa [Function.update_of_ne hj] at hd
        exact ⟨fun j d hd => hs.descriptor j d (hstill j d hd),
          fun j k d e hd he => hs.distinct j k d e (hstill j d hd) (hstill k e he),
          fun j d hd => hs.holds j d (hstill j d hd)⟩
      · cases h

theorem separate_of_reaches {files : Files}
    (h : Reaches EnrollState.step EnrollState.Admits (.idle files) s) : s.Separate :=
  h.invariant (separate_idle files) fun _ _ _ hs hok hstep => hs.step hok hstep

/-- Whatever the workers do at the same time and whatever files are left from before, an answer
that begins with SUCCESS is followed by what the signing command has produced from the CSR of
the same request. -/
theorem success_of_own_csr {files : Files}
    (h : Reaches EnrollState.step EnrollState.Admits (.idle files) s) {i : ι} {c : EnrollCall}
    (hc : s.calls i = some c) (hdone : c.stage = .close) {bytes : List UInt8}
    (hsent : c.sent = successLine ++ bytes) :
    ∃ hostname csr, enrollment? c.request = some (hostname, csr) ∧
      c.signed = some (csr, bytes) := by
  have hholds := (separate_of_reaches h).holds i c hc
  simp only [EnrollCall.Holds, hdone] at hholds
  rcases hholds with ⟨e, he⟩ | ⟨⟨hostname, henroll⟩, cert, hsigned, hcert⟩
  · -- No error text begins like this.
    have hfirst : some (byte 'S') = some (byte 'E') := by
      rw [← EnrollError.head?_text e, ← he, hsent]
      rfl
    exact absurd hfirst (by decide)
  · rw [hsent] at hcert
    exact ⟨hostname, c.csr, henroll, List.append_cancel_left hcert ▸ hsigned⟩

end Workers

/-- A request whose CSR ends in the given text. -/
def someRequest (name : String) : List UInt8 :=
  ascii "ENROLL " ++ ascii name ++ newline :: csrMark ++ ascii name

/-- A request fails and leaves a part of a certificate behind; then its descriptor is used again,
at the same time as another one. -/
def mixedRun : List (EnrollAction Bool) :=
  [.start false 7 (fun _ => true) (someRequest "a"), .step false .next, .step false .next,
    .step false .next, .step false .next, .step false (.fail (some (ascii "part"))),
    .step false .next, .close false, .start false 7 (fun _ => true) (someRequest "b"),
    .start true 8 (fun _ => true) (someRequest "c"), .step false .next, .step true .next,
    .step true .next, .step false .next, .step true .next, .step false .next, .step false .next,
    .step true .next, .step true (.produce (ascii "for c")),
    .step false (.produce (ascii "for b")), .step false .next, .step true .next,
    .step false .next, .step false .next, .step false .next, .step false .next,
    .step false .next]

theorem success_of_own_csr_mixedRun :
    ∃ (s : EnrollState Bool) (c : EnrollCall), s.calls false = some c ∧
      c.sent = successLine ++ ascii "for b" ∧
      ∃ hostname csr, enrollment? c.request = some (hostname, csr) ∧
        c.signed = some (csr, ascii "for b") := by
  have hrun : (Core.run (guarded EnrollState.step EnrollState.Admits) (.idle fun _ => none)
      mixedRun).map (fun s => s.calls false) =
        some (some ⟨7, someRequest "b", csrMark ++ ascii "b", .close,
          successLine ++ ascii "for b", some (csrMark ++ ascii "b", ascii "for b")⟩) := by
    decide +kernel
  obtain ⟨s, hs, hcall⟩ := Option.map_eq_some_iff.mp hrun
  exact ⟨s, _, hcall, rfl, success_of_own_csr (reaches_of_run hs) hcall rfl rfl⟩

/-! ## A call by itself -/

/-- What happens at each stage in an environment. -/
def EnrollEnv.answer (env : EnrollEnv) : EnrollStage → EnrollStep
  | .openCsr => if env.csrOpens then .next else .fail none
  | .signWrite input =>
    match env.sign input with
    | none => .fail none
    | some cert => .produce cert
  | .openCrt => if env.crtOpens then .next else .fail none
  | _ => .next

/-- A step of a call that has the files for itself. -/
def EnrollEnv.step (env : EnrollEnv) (r : Files × EnrollCall) (_ : Unit) :
    Option (Files × EnrollCall) :=
  r.2.step r.1 (env.answer r.2.stage)

namespace EnrollEnv

variable {env : EnrollEnv} {files : Files} {c : EnrollCall} {r r₁ : Files × EnrollCall}
  {sent : List UInt8}

/-- The call returns after some steps, with this as its answer. -/
def Returns (env : EnrollEnv) (r : Files × EnrollCall) (sent : List UInt8) : Prop :=
  ∃ n r', Core.run env.step r (List.replicate n ()) = some r' ∧ r'.2.stage = .close ∧
    r'.2.sent = sent

theorem returns_close (hstage : r.2.stage = .close) (hsent : r.2.sent = sent) :
    env.Returns r sent :=
  ⟨0, r, rfl, hstage, hsent⟩

theorem Returns.head (h : env.Returns r₁ sent) (hstep : env.step r () = some r₁) :
    env.Returns r sent := by
  obtain ⟨n, r', hrun, hreturned⟩ := h
  exact ⟨n + 1, r', (run_cons_of_eq hstep _).trans hrun, hreturned⟩

/-- The files are removed. -/
theorem returns_unlinkCsr (files : Files) (c : EnrollCall) :
    env.Returns (files, { c with stage := .unlinkCsr }) c.sent := by
  refine Returns.head ?_ rfl
  refine Returns.head ?_ rfl
  exact returns_close rfl rfl

/-- The loop of `fread` and `write` sends the rest of the certificate. -/
theorem returns_readCrt {cert : List UInt8} (hcrt : files (crtFilename c.fd) = some cert)
    {offset : Nat} (hstage : c.stage = .readCrt offset)
    (hsent : c.sent = successLine ++ cert.take offset) :
    env.Returns (files, c) (successLine ++ cert) := by
  -- Each block that is not empty leaves less to be read.
  induction hrest : cert.length - offset using Nat.strong_induction_on generalizing offset c with
  | _ rest ih =>
    obtain ⟨fd, request, csr, stage, sent, signed⟩ := c
    change stage = .readCrt offset at hstage
    change sent = successLine ++ cert.take offset at hsent
    change files (crtFilename fd) = some cert at hcrt
    subst hstage hsent
    by_cases hend : readBlock files (crtFilename fd) offset = []
    · rw [EnrollCall.take_of_readBlock_eq_nil hcrt hend]
      exact (returns_unlinkCsr files ⟨fd, request, csr, .close, _, signed⟩).head (if_pos hend)
    · have hpos := List.length_pos_iff.mpr hend
      have hlt : offset < cert.length := by
        rw [EnrollCall.readBlock_eq hcrt, List.length_take, List.length_drop] at hpos
        omega
      refine Returns.head ?_ (if_neg hend)
      refine ih _ ?_ hcrt rfl ?_ rfl
      · change cert.length - (offset + (readBlock files (crtFilename fd) offset).length) < rest
        omega
      · rw [← EnrollCall.take_append_readBlock hcrt, List.append_assoc]

section Stages

variable {fd : Int} {request : List UInt8} {csr : CStr}

theorem returns_openCrt {cert : List UInt8} (hcrt : files (crtFilename fd) = some cert)
    (signed : Option (List UInt8 × List UInt8)) :
    env.Returns (files, ⟨fd, request, csr, .openCrt, [], signed⟩)
      (if env.crtOpens then EnrollOutcome.certificate cert else .error .crtRead).reply := by
  cases hopens : env.crtOpens with
  | false =>
    have hstep : env.step (files, ⟨fd, request, csr, .openCrt, [], signed⟩) () =
        some (files, ⟨fd, request, csr, .unlinkCsr, EnrollError.crtRead.text, signed⟩) := by
      rw [step, answer, hopens]
      rfl
    exact (returns_unlinkCsr files ⟨fd, request, csr, .openCrt, _, signed⟩).head hstep
  | true =>
    have hstep : env.step (files, ⟨fd, request, csr, .openCrt, [], signed⟩) () =
        some (files, ⟨fd, request, csr, .sendSuccess, [], signed⟩) := by
      rw [step, answer, hopens]
      change (files (crtFilename fd)).map _ = _
      rw [hcrt]
      rfl
    have hsend : env.step (files, ⟨fd, request, csr, .sendSuccess, [], signed⟩) () =
        some (files, ⟨fd, request, csr, .readCrt 0, successLine, signed⟩) := rfl
    have hread : env.Returns (files, ⟨fd, request, csr, .readCrt 0, successLine, signed⟩)
        (successLine ++ cert) := returns_readCrt hcrt rfl (List.append_nil _).symm
    exact (hread.head hsend).head hstep

/-- The signing command has read the CSR, and its output file is empty. -/
theorem returns_signWrite (hcrt : files (crtFilename fd) = some []) :
    env.Returns (files, ⟨fd, request, csr, .signWrite csr, [], none⟩)
      (match env.sign csr with
        | none => EnrollOutcome.error .signingFailed
        | some cert => if env.crtOpens then .certificate cert else .error .crtRead).reply := by
  cases hsign : env.sign csr with
  | none =>
    have hstep : env.step (files, ⟨fd, request, csr, .signWrite csr, [], none⟩) () =
        some (Function.update files (crtFilename fd) none,
          ⟨fd, request, csr, .signFailed, [], none⟩) := by
      rw [step, answer, hsign]
      rfl
    have hfailed (files : Files) : env.Returns (files, ⟨fd, request, csr, .signFailed, [], none⟩)
        EnrollError.signingFailed.text := by
      have hclose : env.step (files, ⟨fd, request, csr, .signFailed, [], none⟩) () =
          some (Function.update files (csrFilename fd) none,
            ⟨fd, request, csr, .close, EnrollError.signingFailed.text, none⟩) := rfl
      exact Returns.head (returns_close rfl rfl) hclose
    exact (hfailed _).head hstep
  | some cert =>
    have hstep : env.step (files, ⟨fd, request, csr, .signWrite csr, [], none⟩) () =
        some (writeAt files (crtFilename fd) cert,
          ⟨fd, request, csr, .openCrt, [], some (csr, cert)⟩) := by
      rw [step, answer, hsign]
      rfl
    exact (returns_openCrt (EnrollCall.writeAt_empty hcrt cert) (some (csr, cert))).head hstep

/-- A call that has the files for itself does what `process_enrollment` does after its checks. -/
theorem returns_issue (files : Files) :
    env.Returns (files, ⟨fd, request, csr, .openCsr, [], none⟩) (env.issue csr).reply := by
  rw [issue]
  cases hopens : env.csrOpens with
  | false =>
    have hstep : env.step (files, ⟨fd, request, csr, .openCsr, [], none⟩) () =
        some (files, ⟨fd, request, csr, .close, EnrollError.csrWrite.text, none⟩) := by
      rw [step, answer, hopens]
      rfl
    exact Returns.head (returns_close rfl rfl) hstep
  | true =>
    have hopen : env.step (files, ⟨fd, request, csr, .openCsr, [], none⟩) () =
        some (Function.update files (csrFilename fd) (some []),
          ⟨fd, request, csr, .writeCsr, [], none⟩) := by
      rw [step, answer, hopens]
      rfl
    have hwrite (files : Files) : env.step (files, ⟨fd, request, csr, .writeCsr, [], none⟩) () =
        some (writeAt files (csrFilename fd) csr, ⟨fd, request, csr, .signRead, [], none⟩) := rfl
    have hread {files : Files} (hcsr : files (csrFilename fd) = some csr) :
        env.step (files, ⟨fd, request, csr, .signRead, [], none⟩) () =
          some (files, ⟨fd, request, csr, .signOpen csr, [], none⟩) := by
      change (files (csrFilename fd)).map _ = _
      rw [hcsr]
      rfl
    have hcreate (files : Files) :
        env.step (files, ⟨fd, request, csr, .signOpen csr, [], none⟩) () =
          some (Function.update files (crtFilename fd) (some []),
            ⟨fd, request, csr, .signWrite csr, [], none⟩) := rfl
    have hempty := Function.update_self (csrFilename fd) (some []) files
    have hcsr := EnrollCall.writeAt_empty hempty csr
    refine Returns.head ?_ hopen
    refine Returns.head ?_ (hwrite _)
    refine Returns.head ?_ (hread hcsr)
    refine Returns.head ?_ (hcreate _)
    exact returns_signWrite (Function.update_self ..)

end Stages

/-- Whatever files there are, a call that has them for itself returns, and its answer is the one of
`process_enrollment`. -/
theorem returns_processEnrollment (env : EnrollEnv) (files : Files) (fd : Int)
    (request : List UInt8) : env.Returns (files, .start fd env.verify request)
      (processEnrollment env request).reply := by
  rw [EnrollCall.start, processEnrollment]
  cases enrollCheck env.verify request with
  | error e => exact returns_close rfl rfl
  | ok csr => exact returns_issue files

end EnrollEnv

end AdMQ
