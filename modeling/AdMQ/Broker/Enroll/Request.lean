import AdMQ.Broker.Worker.Grammar
import AdMQ.Core.Search

/-!
# Enrollment requests

A lobby request is a line `ENROLL hostname` and a certificate signing request, a CSR,
behind it. `process_enrollment` has the name on the line confirmed for the peer and
the CSR signed; the name in the CSR is not looked at. The worker makes a single read
for each connection, so that what arrives later is not part of the request.
-/

namespace AdMQ

open Core

/-- The errors of `process_enrollment`. -/
inductive EnrollError where
  | invalidFormat
  | notEnroll
  | violation
  | noCsr
  | csrWrite
  | signingFailed
  | crtRead
  deriving DecidableEq

/-- What is written to the client for an error. -/
def EnrollError.text : EnrollError → List UInt8
  | .invalidFormat => ascii "ERROR: Invalid request format.\n"
  | .notEnroll => ascii "ERROR: Lobby only accepts ENROLL <hostname> commands.\n"
  | .violation => ascii "ERROR: Security violation. IP does not match DNS.\n"
  | .noCsr => ascii "ERROR: No valid CSR block found in request.\n"
  | .csrWrite => ascii "ERROR: Internal server error (CSR write).\n"
  | .signingFailed => ascii "ERROR: Certificate signing failed.\n"
  | .crtRead => ascii "ERROR: Internal server error (CRT read).\n"

/-- How `process_enrollment` answers. -/
inductive EnrollOutcome where
  | error (e : EnrollError)
  | certificate (cert : List UInt8)
  deriving DecidableEq

/-- What is written in front of a certificate. -/
def successLine : List UInt8 := ascii "SUCCESS: Certificate generated.\n"

/-- The bytes that are written to the client. -/
def EnrollOutcome.reply : EnrollOutcome → List UInt8
  | .error e => e.text
  | .certificate cert => successLine ++ cert

/-- `auth_verify_identity`: the address of the peer, if it is known, is among those to which the
claimed name resolves. -/
def authVerifyIdentity (peerIp : Option CStr) (resolve : CStr → Option (List CStr))
    (claimedHostname : CStr) : Bool :=
  match peerIp, resolve claimedHostname with
  | some ip, some addresses => addresses.any (· == ip)
  | _, _ => false

/-- `first_line`, unless there is no newline. -/
def firstLine? (request : CStr) : Option CStr :=
  if newline ∈ request then some ((request.takeWhile (· != newline)).take 255) else none

/-- The `hostname` that `sscanf(first_line, "%31s %127s", ..)` reads behind `ENROLL`. -/
def enrollHostname? (firstLine : CStr) : Option CStr :=
  match scanWord 31 firstLine with
  | none => none
  | some (command, rest) =>
    match scanWord 127 rest with
    | none => none
    | some (hostname, _) => if command = ascii "ENROLL" then some hostname else none

/-- The line with which a CSR begins. -/
def csrMark : CStr := ascii "-----BEGIN CERTIFICATE REQUEST-----"

/-- The part of `process_enrollment` in front of the temporary files: the CSR, or an error. -/
def enrollCheck (verify : CStr → Bool) (requestBuffer : List UInt8) :
    Except EnrollError CStr :=
  match firstLine? (cstr requestBuffer) with
  | none => .error .invalidFormat
  | some firstLine =>
    match enrollHostname? firstLine with
    | none => .error .notEnroll
    | some hostname =>
      if verify hostname then
        match strstr csrMark (cstr requestBuffer) with
        | none => .error .noCsr
        | some csr => .ok csr
      else .error .violation

/-- What a call of `process_enrollment` depends on besides the request: the peer and the answers of
the name server, whether the temporary files can be opened, and the signing command, which
returns a certificate for what is in its input file or fails. -/
structure EnrollEnv where
  peerIp : Option CStr
  resolve : CStr → Option (List CStr)
  csrOpens : Bool
  crtOpens : Bool
  sign : CStr → Option (List UInt8)

def EnrollEnv.verify (env : EnrollEnv) : CStr → Bool := authVerifyIdentity env.peerIp env.resolve

/-- The part of `process_enrollment` that works with the temporary files, undisturbed by others. -/
def EnrollEnv.issue (env : EnrollEnv) (csr : CStr) : EnrollOutcome :=
  if env.csrOpens then
    match env.sign csr with
    | none => .error .signingFailed
    | some cert => if env.crtOpens then .certificate cert else .error .crtRead
  else .error .csrWrite

/-- `process_enrollment`. -/
def processEnrollment (env : EnrollEnv) (requestBuffer : List UInt8) : EnrollOutcome :=
  match enrollCheck env.verify requestBuffer with
  | .error e => .error e
  | .ok csr => env.issue csr

/-- The lobby branch of the worker, with what successive reads would return: only the first read
is made, and nothing is done at the end of the stream. -/
def lobbyWorker (env : EnrollEnv) : List (List UInt8) → Option EnrollOutcome
  | [] => none
  | chunk :: _ => if chunk = [] then none else some (processEnrollment env (chunk.take 4095))

/-! ## Requests for which a certificate can be issued -/

/-- The name and the CSR of a request that has both. -/
def enrollment? (requestBuffer : List UInt8) : Option (CStr × CStr) :=
  match (firstLine? (cstr requestBuffer)).bind enrollHostname?,
    strstr csrMark (cstr requestBuffer) with
  | some hostname, some csr => some (hostname, csr)
  | _, _ => none

theorem enrollment?_eq_some {request : List UInt8} {hostname csr : CStr} :
    enrollment? request = some (hostname, csr) ↔
      (firstLine? (cstr request)).bind enrollHostname? = some hostname ∧
        strstr csrMark (cstr request) = some csr := by
  rw [enrollment?]
  cases (firstLine? (cstr request)).bind enrollHostname? <;>
    cases strstr csrMark (cstr request) <;> simp

/-- The check leads to the CSR exactly if the request has both and the name is confirmed. -/
theorem enrollCheck_eq_ok {verify : CStr → Bool} {request : List UInt8} {csr : CStr} :
    enrollCheck verify request = .ok csr ↔
      ∃ hostname, enrollment? request = some (hostname, csr) ∧ verify hostname = true := by
  simp only [enrollment?_eq_some, enrollCheck]
  cases firstLine? (cstr request) with
  | none => simp
  | some firstLine =>
    rw [Option.bind_some]
    cases hname : enrollHostname? firstLine with
    | none => simp [hname]
    | some hostname =>
      cases hverify : verify hostname <;> cases strstr csrMark (cstr request) <;>
        simp [hname, hverify]

/-- A certificate is issued exactly if also the files can be used and the command signs. -/
theorem processEnrollment_eq_certificate {env : EnrollEnv} {request cert : List UInt8} :
    processEnrollment env request = .certificate cert ↔
      ∃ hostname csr, enrollment? request = some (hostname, csr) ∧ env.verify hostname = true ∧
        env.csrOpens = true ∧ env.sign csr = some cert ∧ env.crtOpens = true := by
  have hissue (csr : CStr) : env.issue csr = .certificate cert ↔
      env.csrOpens = true ∧ env.sign csr = some cert ∧ env.crtOpens = true := by
    rw [EnrollEnv.issue]
    cases env.csrOpens <;> cases env.crtOpens <;> cases env.sign csr <;> simp
  have hok : processEnrollment env request = .certificate cert ↔
      ∃ csr, enrollCheck env.verify request = .ok csr ∧ env.issue csr = .certificate cert := by
    rw [processEnrollment]
    cases enrollCheck env.verify request <;> simp
  simp only [hok, enrollCheck_eq_ok, hissue]
  constructor
  · rintro ⟨csr, ⟨hostname, henroll, hverify⟩, hrest⟩
    exact ⟨hostname, csr, henroll, hverify, hrest⟩
  · rintro ⟨hostname, csr, henroll, hverify, hrest⟩
    exact ⟨csr, ⟨hostname, henroll, hverify⟩, hrest⟩

/-! ## Successive reads -/

/-- The first read shows as much of the request as matters: there is no newline to come, or the
first line is there and either it is no enrollment or the whole CSR is there as well. -/
def ReadSuffices (first request : List UInt8) : Prop :=
  newline ∉ cstr request ∨
    newline ∈ cstr first ∧ (enrollment? request = none ∨ cstr first = cstr request)

/-- What is read of a string at first is the beginning of the string. -/
theorem cstr_isPrefix {s t : List UInt8} (h : s <+: t) : cstr s <+: cstr t := by
  obtain ⟨u, rfl⟩ := h
  by_cases hnul : 0 ∈ s
  · obtain ⟨front, back, rfl⟩ := List.append_of_mem hnul
    have hsame : cstr (front ++ 0 :: back ++ u) = cstr (front ++ 0 :: back) := by
      rw [List.append_assoc, List.cons_append, cstr_append_zero, cstr_append_zero]
    exact hsame ▸ List.prefix_refl _
  · rw [cstr_eq_self hnul, cstr, List.takeWhile_append_of_pos (bne_of_notMem hnul)]
    exact List.prefix_append _ _

theorem firstLine?_append {s : CStr} (h : newline ∈ s) (u : CStr) :
    firstLine? (s ++ u) = firstLine? s := by
  obtain ⟨front, back, rfl, hfront⟩ := List.eq_append_cons_of_mem h
  have hstop (more : CStr) :
      (front ++ newline :: more).takeWhile (· != newline) = front :=
    takeWhile_append_stop (bne_of_notMem hfront) (by simp)
  rw [firstLine?, firstLine?, if_pos h, if_pos (List.mem_append_left _ h), hstop,
    List.append_assoc, List.cons_append, hstop]

/-- Without a newline the format is invalid, and only then. -/
theorem processEnrollment_eq_invalidFormat (env : EnrollEnv) {request : List UInt8} :
    processEnrollment env request = .error .invalidFormat ↔ newline ∉ cstr request := by
  by_cases h : newline ∈ cstr request
  · refine iff_of_false (fun hinvalid => ?_) (not_not.mpr h)
    have hissue (csr : CStr) : env.issue csr ≠ .error .invalidFormat := by
      rw [EnrollEnv.issue]
      cases env.csrOpens <;> cases env.crtOpens <;> cases env.sign csr <;> simp
    simp only [processEnrollment, enrollCheck, firstLine?, if_pos h] at hinvalid
    cases hname : enrollHostname? (((cstr request).takeWhile (· != newline)).take 255) with
    | none => simp [hname] at hinvalid
    | some hostname =>
      cases hverify : env.verify hostname <;> cases hcsr : strstr csrMark (cstr request) <;>
        simp [hname, hverify, hcsr, hissue] at hinvalid
  · refine iff_of_true ?_ h
    simp [processEnrollment, enrollCheck, firstLine?, h]

/-- The outcome depends on the string that is in the buffer. -/
theorem processEnrollment_congr {s t : List UInt8} (h : cstr s = cstr t) (env : EnrollEnv) :
    processEnrollment env s = processEnrollment env t := by
  simp only [processEnrollment, enrollCheck, h]

/-- Without a name and a CSR, nothing behind the first line changes the outcome. -/
theorem processEnrollment_of_noEnrollment {first request : List UInt8} (hbegins : first <+: request)
    (hline : newline ∈ cstr first) (hnone : enrollment? request = none) (env : EnrollEnv) :
    processEnrollment env first = processEnrollment env request := by
  obtain ⟨u, hu⟩ := cstr_isPrefix hbegins
  have hfirst : firstLine? (cstr request) = firstLine? (cstr first) := by
    rw [← hu, firstLine?_append hline]
  simp only [processEnrollment, enrollCheck, hfirst]
  cases hfirstLine : firstLine? (cstr first) with
  | none => rfl
  | some firstLine =>
    cases hname : enrollHostname? firstLine with
    | none => simp only [hname]
    | some hostname =>
      have hcsr : strstr csrMark (cstr request) = none := by
        cases hcsr : strstr csrMark (cstr request) with
        | none => rfl
        | some csr =>
          have hsome : enrollment? request = some (hostname, csr) :=
            enrollment?_eq_some.mpr ⟨by rw [hfirst, hfirstLine]; exact hname, hcsr⟩
          rw [hnone] at hsome
          cases hsome
      have hcsrFirst : strstr csrMark (cstr first) = none := by
        cases hfound : strstr csrMark (cstr first) with
        | none => rfl
        | some csr =>
          rw [← hu, strstr_append hfound u] at hcsr
          cases hcsr
      simp only [hname, hcsr, hcsrFirst]

/-- Every name is confirmed, and every CSR is its own certificate. -/
def EnrollEnv.lenient : EnrollEnv := ⟨some [], fun _ => some [[]], true, true, some⟩

/-- The outcome of the first read is that of the request, in every environment, exactly if the
read suffices. -/
theorem readSuffices_iff {first request : List UInt8} (hbegins : first <+: request) :
    (∀ env, processEnrollment env first = processEnrollment env request) ↔
      ReadSuffices first request := by
  obtain ⟨u, hu⟩ := cstr_isPrefix hbegins
  constructor
  · intro hsame
    by_cases hnewline : newline ∈ cstr request
    · have hline : newline ∈ cstr first := by
        by_contra hnone
        have hinvalid := (processEnrollment_eq_invalidFormat .lenient).mpr hnone
        rw [hsame] at hinvalid
        exact (processEnrollment_eq_invalidFormat .lenient).mp hinvalid hnewline
      refine Or.inr ⟨hline, ?_⟩
      cases henroll : enrollment? request with
      | none => exact Or.inl rfl
      | some both =>
        obtain ⟨hostname, csr⟩ := both
        -- The certificate that the whole CSR is signed with shows that no byte of it is missing.
        have hcert : processEnrollment .lenient request = .certificate csr :=
          processEnrollment_eq_certificate.mpr ⟨hostname, csr, henroll, rfl, rfl, rfl, rfl⟩
        rw [← hsame] at hcert
        obtain ⟨name', csr', henroll', -, -, hsign, -⟩ :=
          processEnrollment_eq_certificate.mp hcert
        obtain rfl : csr' = csr := Option.some.inj hsign
        have hfound := (enrollment?_eq_some.mp henroll').2
        have hwhole := (enrollment?_eq_some.mp henroll).2
        rw [← hu, strstr_append hfound u, Option.some.injEq] at hwhole
        have hnil : u = [] := List.self_eq_append_right.mp hwhole.symm
        rw [hnil, List.append_nil] at hu
        exact Or.inr hu
    · exact Or.inl hnewline
  · rintro (hnone | ⟨hline, hnone | hsame⟩) env
    · have hfirst : newline ∉ cstr first := fun h =>
        hnone (hu ▸ List.mem_append_left u h)
      rw [(processEnrollment_eq_invalidFormat env).mpr hnone,
        (processEnrollment_eq_invalidFormat env).mpr hfirst]
    · exact processEnrollment_of_noEnrollment hbegins hline hnone env
    · exact processEnrollment_congr hsame env

/-- However a request is cut into reads, the outcome is that of a single read exactly if the first
read suffices. -/
theorem lobbyWorker_cut_iff {request : List UInt8} (hlen : request.length ≤ 4095)
    {chunks : List (List UInt8)} (hchunks : ∀ chunk ∈ chunks, chunk ≠ [])
    (hcut : chunks.flatten = request) :
    (∀ env, lobbyWorker env chunks = lobbyWorker env [request]) ↔
      ReadSuffices (chunks.headD []) request := by
  cases chunks with
  | nil =>
    obtain rfl : request = [] := hcut.symm
    exact iff_of_true (fun env => rfl) (Or.inl List.not_mem_nil)
  | cons first rest =>
    rw [List.forall_mem_cons] at hchunks
    have hbegins : first <+: request := by
      rw [← hcut, List.flatten_cons]
      exact List.prefix_append _ _
    have hne : request ≠ [] := by
      rintro rfl
      exact hchunks.1 (List.prefix_nil.mp hbegins)
    have hfirst : first.take 4095 = first :=
      List.take_of_length_le (hbegins.length_le.trans hlen)
    rw [List.headD_cons, ← readSuffices_iff hbegins]
    refine forall_congr' fun env => ?_
    rw [lobbyWorker, lobbyWorker, if_neg hchunks.1, if_neg hne, hfirst,
      List.take_of_length_le hlen, Option.some.injEq]

/-- The documented client writes the line and the CSR one after the other. -/
def twoWrites : List (List UInt8) :=
  [ascii "ENROLL desktop123\n", csrMark ++ ascii "\n(body)\n"]

/-- A client that also sends the end of the string may send it alone, but not the CSR. -/
theorem lobbyWorker_cut_iff_twoWrites :
    lobbyWorker .lenient [twoWrites.flatten, [0]] =
        lobbyWorker .lenient [twoWrites.flatten ++ [0]] ∧
      ¬ ∀ env, lobbyWorker env twoWrites = lobbyWorker env [twoWrites.flatten] := by
  constructor
  · have hchunks : ∀ chunk ∈ [twoWrites.flatten, [0]], chunk ≠ [] := by decide +kernel
    have hsuffices : ReadSuffices twoWrites.flatten (twoWrites.flatten ++ [0]) :=
      Or.inr ⟨by decide +kernel, Or.inr (by decide +kernel)⟩
    exact (lobbyWorker_cut_iff (by decide +kernel) hchunks rfl).mpr hsuffices .lenient
  · have hchunks : ∀ chunk ∈ twoWrites, chunk ≠ [] := by decide +kernel
    rw [lobbyWorker_cut_iff (by decide +kernel) hchunks rfl]
    rintro (hnone | ⟨-, hnone | hsame⟩)
    · exact absurd hnone (by decide +kernel)
    · exact absurd hnone (by decide +kernel)
    · exact absurd hsame (by decide +kernel)

/-- If the first read returns the line alone, no CSR is found; together they are signed. -/
theorem lobbyWorker_twoWrites :
    lobbyWorker .lenient twoWrites = some (.error .noCsr) ∧
      lobbyWorker .lenient [twoWrites.flatten] =
        some (.certificate (csrMark ++ ascii "\n(body)\n")) := by
  decide +kernel

/-! ## The name that is certified -/

/-- The hostname on the first line, whole. -/
def lineHostname (request : List UInt8) : CStr :=
  secondWord ((cstr request).takeWhile (· != newline))

/-- A signing command that copies the subject: `subjectOf` is the common name in a certificate, for
the one that `cn` reads in a CSR. -/
def CopiesSubject (sign : CStr → Option (List UInt8)) (cn : CStr → Option CStr)
    (subjectOf : List UInt8 → Option CStr) : Prop :=
  ∀ csr cert, sign csr = some cert → subjectOf cert = cn csr

/-- A command that returns the CSR as the certificate copies its subject. -/
theorem copiesSubject_some (cn : CStr → Option CStr) : CopiesSubject some cn cn := by
  intro csr cert hsign
  rw [Option.some.inj hsign]

/-- The name about which `process_enrollment` asks `auth_verify_identity`. -/
def askedName? (request : List UInt8) : Option CStr :=
  (firstLine? (cstr request)).bind enrollHostname?

/-- Nothing else about the peer is asked: only the answer for this name matters. -/
theorem enrollCheck_congr {verify verify' : CStr → Bool} {request : List UInt8}
    (h : ∀ name, askedName? request = some name → verify name = verify' name) :
    enrollCheck verify request = enrollCheck verify' request := by
  rw [enrollCheck, enrollCheck]
  rw [askedName?] at h
  cases hline : firstLine? (cstr request) with
  | none => rfl
  | some firstLine =>
    cases hname : enrollHostname? firstLine with
    | none => simp only [hname]
    | some hostname => simp only [hname, h hostname (by rw [hline]; exact hname)]

/-- For a peer and the answers of the name server: whatever becomes of the files, and if the signing
command copies the subject, a certificate for the request is one for the name on the line, and that
name was asked about and confirmed for the peer. -/
def CertifiesLine (cn : CStr → Option CStr) (peerIp : Option CStr)
    (resolve : CStr → Option (List CStr)) (request : List UInt8) : Prop :=
  ∀ (csrOpens crtOpens : Bool) (sign : CStr → Option (List UInt8))
    (subjectOf : List UInt8 → Option CStr), CopiesSubject sign cn subjectOf →
    ∀ cert, processEnrollment ⟨peerIp, resolve, csrOpens, crtOpens, sign⟩ request =
        .certificate cert →
      askedName? request = some (lineHostname request) ∧
        authVerifyIdentity peerIp resolve (lineHostname request) = true ∧
        subjectOf cert = some (lineHostname request)

/-- Only the verified name is signed exactly if the name that is read from the line is not
confirmed for the peer, or is the whole name and the subject of the CSR. -/
theorem certifiesLine_iff (cn : CStr → Option CStr) (peerIp : Option CStr)
    (resolve : CStr → Option (List CStr)) (request : List UInt8) :
    CertifiesLine cn peerIp resolve request ↔
      ∀ hostname csr, enrollment? request = some (hostname, csr) →
        authVerifyIdentity peerIp resolve hostname = false ∨
          hostname = lineHostname request ∧ cn csr = some (lineHostname request) := by
  constructor
  · intro h hostname csr henroll
    cases hverify : authVerifyIdentity peerIp resolve hostname with
    | false => exact Or.inl rfl
    | true =>
      have hcert : processEnrollment ⟨peerIp, resolve, true, true, some⟩ request =
          .certificate csr :=
        processEnrollment_eq_certificate.mpr ⟨hostname, csr, henroll, hverify, rfl, rfl, rfl⟩
      obtain ⟨hasked, -, hsubject⟩ := h true true some cn (copiesSubject_some cn) csr hcert
      have hname := (enrollment?_eq_some.mp henroll).1
      exact Or.inr ⟨Option.some.inj (hname.symm.trans hasked), hsubject⟩
  · intro h csrOpens crtOpens sign subjectOf hcopies cert hcert
    obtain ⟨hostname, csr, henroll, hverify, -, hsign, -⟩ :=
      processEnrollment_eq_certificate.mp hcert
    rcases h hostname csr henroll with hfalse | ⟨rfl, hcn⟩
    · exact absurd (hverify.symm.trans hfalse) (by decide)
    · exact ⟨(enrollment?_eq_some.mp henroll).1, hverify, (hcopies csr cert hsign).trans hcn⟩

/-- What stands behind the mark of a CSR, as its name. -/
def markedName (csr : CStr) : Option CStr := some (csr.drop csrMark.length)

/-- A name server that knows the address of `a` only. -/
def knowsA (name : CStr) : Option (List CStr) :=
  if name = ascii "a" then some [ascii "10.0.0.7"] else none

/-- A line with one name and a CSR with another. -/
theorem enrollment?_other : enrollment? (ascii "ENROLL a\n" ++ csrMark ++ ascii "b") =
    some (ascii "a", csrMark ++ ascii "b") := by
  decide +kernel

/-- The peer with the address of `a` gets a certificate for `a`; another one gets none. -/
theorem certifiesLine_iff_same :
    CertifiesLine markedName (some (ascii "10.0.0.7")) knowsA
        (ascii "ENROLL a\n" ++ csrMark ++ ascii "a") ∧
      CertifiesLine markedName (some (ascii "10.0.0.8")) knowsA
        (ascii "ENROLL a\n" ++ csrMark ++ ascii "b") := by
  constructor
  · refine (certifiesLine_iff _ _ _ _).mpr fun hostname csr henroll => Or.inr ?_
    have hread : enrollment? (ascii "ENROLL a\n" ++ csrMark ++ ascii "a") =
        some (ascii "a", csrMark ++ ascii "a") := by decide +kernel
    rw [hread] at henroll
    obtain ⟨rfl, rfl⟩ := Prod.mk.inj (Option.some.inj henroll)
    decide +kernel
  · refine (certifiesLine_iff _ _ _ _).mpr fun hostname csr henroll => Or.inl ?_
    rw [enrollment?_other] at henroll
    obtain ⟨rfl, -⟩ := Prod.mk.inj (Option.some.inj henroll)
    decide +kernel

/-- The peer with the address of `a` gets a certificate for `b`. -/
theorem not_certifiesLine_other :
    ¬ CertifiesLine markedName (some (ascii "10.0.0.7")) knowsA
      (ascii "ENROLL a\n" ++ csrMark ++ ascii "b") := by
  intro h
  have hcert : processEnrollment ⟨some (ascii "10.0.0.7"), knowsA, true, true, some⟩
      (ascii "ENROLL a\n" ++ csrMark ++ ascii "b") = .certificate (csrMark ++ ascii "b") :=
    processEnrollment_eq_certificate.mpr ⟨_, _, enrollment?_other, by decide +kernel, rfl, rfl, rfl⟩
  obtain ⟨-, -, hsubject⟩ := h true true some markedName (copiesSubject_some markedName) _ hcert
  exact absurd hsubject (by decide +kernel)

end AdMQ
