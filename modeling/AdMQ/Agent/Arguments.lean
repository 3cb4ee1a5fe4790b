import AdMQ.Agent.Accesses
import AdMQ.Core.Heap

/-!
# The memory of the arguments

`add_arg` keeps the arguments of a command as an array of pointers to copies, ended by NULL,
and the callers hand array and count to `free_tokens` when they are done. The scan never
looks into the array, so its calls of `add_arg` are made here in their order.

Every access is valid. A command that is accepted is seen by `execvp` as its arguments, and
then all memory is free again. A command that is refused has the count -1, for which
`free_tokens` frees the array only: the copies made so far are lost.
-/

namespace AdMQ

open Core

namespace HeapArgs

variable (A : Allocator Empty)

/-- `add_arg`, with the new place of the array. -/
def addArg (argv : Option Loc) (argc : Nat) (buffer : CStr) : HeapM Empty Loc := do
  let l ← Heap.realloc A argv (argc + 2)
  let copy ← Heap.strdup A buffer
  Heap.store l argc (.ptr (some copy))
  Heap.store l (argc + 1) (.ptr none)
  pure l

/-- The calls of `add_arg` for these arguments. -/
def addArgs (argv : Option Loc) (argc : Nat) : List CStr → HeapM Empty (Option Loc)
  | [] => pure argv
  | token :: rest => do
    let l ← addArg A argv argc token
    addArgs (some l) (argc + 1) rest

/-- The loop of `free_tokens`. -/
def freeArgs (l : Loc) : Nat → HeapM Empty Unit
  | 0 => pure ()
  | n + 1 => do
    freeArgs l n
    let p ← Heap.loadPtr l n
    Heap.free p

/-- `free_tokens`. -/
def freeTokens (argv : Option Loc) (argc : Int) : HeapM Empty Unit :=
  match argv with
  | none => pure ()
  | some l => do
    freeArgs l argc.toNat
    Heap.free (some l)

/-- What `execvp` reads: the strings in front of the NULL. -/
def execArgs (l : Loc) : Nat → Nat → HeapM Empty (List CStr)
  | 0, _ => failure
  | fuel + 1, i => do
    let p ← Heap.loadPtr l i
    match p with
    | none => pure []
    | some copy => do
      let arg ← Heap.readText copy
      let rest ← execArgs l fuel (i + 1)
      pure (arg :: rest)

/-- The callers: a command with arguments is executed, and the tokens are freed. -/
def runCommand (inputStr : CStr) : HeapM Empty (Int × List CStr) := do
  let t ← Heap.require (RawScanner.tokenizeCommand inputStr)
  let argv ← addArgs A none 0 t.argv
  if 0 < t.argc then do
    let l ← Heap.deref argv
    let fuel ← Heap.rounds
    let args ← execArgs l fuel 0
    freeTokens argv t.argc
    pure (t.argc, args)
  else do
    freeTokens argv t.argc
    pure (t.argc, [])

/-! ## The blocks of the arguments -/

/-- The copies of the arguments. -/
def copies (args : List (Loc × CStr)) : Multiset (Loc × HeapBlock Empty) :=
  (args.map fun a => (a.1, Heap.text a.2) : List (Loc × HeapBlock Empty))

/-- The array. -/
def array (args : List (Loc × CStr)) : HeapBlock Empty :=
  args.map (fun a => some (.ptr (some a.1))) ++ [some (.ptr none)]

/-- The blocks of these arguments, with the pointer to the array. -/
inductive Blocks : Option Loc → List (Loc × CStr) → Multiset (Loc × HeapBlock Empty) → Prop where
  | unset : Blocks none [] 0
  | set (l : Loc) (args : List (Loc × CStr)) :
      Blocks (some l) args ((l, array args) ::ₘ copies args)

variable {A} {m : Multiset (Loc × HeapBlock Empty)} {args : List (Loc × CStr)} {l : Loc}

theorem copies_append (args : List (Loc × CStr)) (a : Loc × CStr) :
    (copies (args ++ [a]) : Multiset (Loc × HeapBlock Empty)) =
      (a.1, Heap.text a.2) ::ₘ copies args := by
  rw [copies, List.map_append, ← Multiset.coe_add, add_comm]
  rfl

theorem length_array (args : List (Loc × CStr)) :
    (array args : HeapBlock Empty).length = args.length + 1 := by
  rw [array, List.length_append, List.length_map, List.length_singleton]

/-- The array after its last two words were written. -/
theorem array_append (args : List (Loc × CStr)) (a : Loc × CStr) :
    (((array args ++ [none]).set args.length (some (.ptr (some a.1)))).set (args.length + 1)
      (some (.ptr none)) : HeapBlock Empty) = array (args ++ [a]) := by
  have hlen : (args.map fun a => some (Word.ptr (some a.1) : Word Empty)).length = args.length :=
    List.length_map _
  rw [array, array, List.append_assoc, List.set_append_right _ _ hlen.le, hlen,
    List.set_append_right _ _ (hlen.le.trans (Nat.le_add_right _ 1)), hlen, Nat.sub_self,
    Nat.add_sub_cancel_left, List.map_append, List.append_assoc]
  rfl

theorem addArg_spec {argv : Option Loc} (h : Blocks argv args m) (buffer : CStr) :
    Heap.Spec (addArg A argv args.length buffer) m fun l m' =>
      ∃ args', Blocks (some l) args' m' ∧ ∃ copy, args' = args ++ [(copy, buffer)] := by
  cases h with
  | unset =>
    refine .bind (.alloc A _) ?_
    rintro l _ rfl
    refine .bind (.alloc A _) ?_
    rintro copy _ rfl
    rw [Multiset.cons_swap]
    refine .step (.storeUnit _ (show 0 < 2 by decide)) ?_
    refine .step (.storeUnit _ (show 1 < 2 by decide)) ?_
    exact .pure ⟨[(copy, buffer)], .set l [(copy, buffer)], copy, rfl⟩
  | set l args =>
    refine .bind (.realloc A _) ?_
    rintro l' _ rfl
    refine .bind (.alloc A _) ?_
    rintro copy _ rfl
    rw [length_array, List.take_of_length_le (by rw [length_array]; omega),
      show args.length + 2 - (args.length + 1) = 1 by omega, Multiset.cons_swap]
    refine .step (.storeUnit _ (by
      rw [List.length_append, length_array]; omega)) ?_
    refine .step (.storeUnit _ (by
      rw [List.length_set, List.length_append, length_array]; simp)) ?_
    refine .pure ⟨args ++ [(copy, buffer)], ?_, copy, rfl⟩
    have hblocks := Blocks.set l' (args ++ [(copy, buffer)])
    rwa [copies_append, ← array_append] at hblocks

theorem addArgs_spec {argv : Option Loc} (h : Blocks argv args m) (tokens : List CStr) :
    Heap.Spec (addArgs A argv args.length tokens) m fun argv' m' =>
      ∃ args', Blocks argv' args' m' ∧ args'.map Prod.snd = args.map Prod.snd ++ tokens := by
  induction tokens generalizing argv args m with
  | nil => exact .pure ⟨args, h, (List.append_nil _).symm⟩
  | cons token rest ih =>
    refine .bind (addArg_spec h token) ?_
    rintro l m' ⟨_, hblocks, copy, rfl⟩
    have hlen : args.length + 1 = (args ++ [(copy, token)]).length := by simp
    rw [hlen]
    refine (ih hblocks).mono ?_
    rintro argv' m'' ⟨args', hblocks', hargs'⟩
    exact ⟨args', hblocks', by simp [hargs']⟩

theorem getElem?_array {i : Nat} (hi : i < args.length) :
    (array args : HeapBlock Empty)[i]? = some (some (.ptr (some (args[i]).1))) := by
  rw [array, List.getElem?_append_left (by rwa [List.length_map]), List.getElem?_map,
    List.getElem?_eq_getElem hi]
  rfl

/-- The loop of `free_tokens` has freed the first copies. -/
theorem freeArgs_spec {n : Nat} (hn : n ≤ args.length) :
    Heap.Spec (freeArgs l n) ((l, array args) ::ₘ copies args) fun a m' =>
      a = () ∧ m' = (l, array args) ::ₘ copies (args.drop n) := by
  induction n with
  | zero => exact .pure ⟨rfl, rfl⟩
  | succ n ih =>
    refine .step (ih (Nat.le_of_succ_le hn)) ?_
    refine .step (.loadPtr (Multiset.mem_cons_self ..) (getElem?_array hn)) ?_
    rw [List.drop_eq_getElem_cons hn, copies, List.map_cons, ← Multiset.cons_coe,
      Multiset.cons_swap]
    exact Heap.Spec.free.mono fun _ _ hm => ⟨rfl, hm⟩

/-- `execvp` sees the arguments. -/
theorem execArgs_spec (hplain : ∀ a ∈ args, 0 ∉ a.2) {fuel i : Nat} (hi : i ≤ args.length)
    (hfuel : args.length - i < fuel) :
    Heap.Spec (execArgs l fuel i) ((l, array args) ::ₘ copies args) fun a m' =>
      a = (args.drop i).map Prod.snd ∧ m' = (l, array args) ::ₘ copies args := by
  induction fuel generalizing i with
  | zero => exact absurd hfuel (Nat.not_lt_zero _)
  | succ fuel ih =>
    by_cases hlt : i < args.length
    · refine .step (.loadPtr (Multiset.mem_cons_self ..) (getElem?_array hlt)) ?_
      have hmem : args[i] ∈ args := List.getElem_mem hlt
      have hcopy : ((args[i]).1, (Heap.text (args[i]).2 : HeapBlock Empty)) ∈ copies args := by
        rw [copies, Multiset.mem_coe]
        exact List.mem_map_of_mem hmem
      refine .step (.readText (Multiset.mem_cons_of_mem hcopy) (hplain _ hmem)) ?_
      refine .step (ih hlt (by omega)) ?_
      refine .pure ⟨?_, rfl⟩
      rw [List.drop_eq_getElem_cons hlt, List.map_cons]
    · obtain rfl : i = args.length := Nat.le_antisymm hi (Nat.not_lt.mp hlt)
      have hnull : (array args : HeapBlock Empty)[args.length]? = some (some (.ptr none)) := by
        rw [array, List.getElem?_append_right (by simp)]
        simp
      refine .step (.loadPtr (Multiset.mem_cons_self ..) hnull) ?_
      refine .pure ⟨?_, rfl⟩
      rw [List.drop_length]
      rfl

/-- With the count that `tokenize_command` returned for accepted arguments, everything is freed. -/
theorem freeTokens_spec {argv : Option Loc} (h : Blocks argv args m) :
    Heap.Spec (freeTokens argv args.length) m fun a m' => a = () ∧ m' = 0 := by
  cases h with
  | unset => exact .pure ⟨rfl, rfl⟩
  | set l args =>
    refine .step (freeArgs_spec (Nat.le_refl _)) ?_
    rw [Int.toNat_natCast, List.drop_length]
    exact Heap.Spec.free.mono fun _ _ hm => ⟨rfl, hm⟩

/-- With the count -1 only the array is freed. -/
theorem freeTokens_refused {argv : Option Loc} (h : Blocks argv args m) :
    Heap.Spec (freeTokens argv (-1)) m fun a m' => a = () ∧ m' = copies args := by
  cases h with
  | unset => exact .pure ⟨rfl, rfl⟩
  | set l args =>
    refine .step (freeArgs_spec (Nat.zero_le _)) ?_
    exact Heap.Spec.free.mono fun _ _ hm => ⟨rfl, hm⟩

variable {inputStr : CStr} {t : Tokenized}

theorem runCommand_accepted (ht : RawScanner.tokenizeCommand inputStr = some t)
    (hargc : t.argc = t.argv.length) (hplain : ∀ a ∈ t.argv, 0 ∉ a) :
    Heap.Spec (runCommand A inputStr) 0 fun a m' => m' = 0 ∧ a = (t.argc, t.argv) := by
  rw [runCommand, ht]
  refine .step (.require t) ?_
  refine .bind (addArgs_spec .unset t.argv) ?_
  rintro argv m ⟨args, hblocks, hargs⟩
  have hlen : t.argc = args.length := by
    rw [hargc, ← List.nil_append t.argv, ← List.map_nil, ← hargs, List.length_map]
  split
  next hpos =>
    cases hblocks with
    | unset => exact absurd hpos (by rw [hlen]; decide)
    | set l args =>
      refine .step (.deref l) ?_
      refine .bind .rounds ?_
      rintro fuel _ ⟨hcard, rfl⟩
      have hfuel : args.length - 0 < fuel := by
        rw [Multiset.card_cons, copies, Multiset.coe_card, List.length_map] at hcard
        omega
      have hplain' : ∀ a ∈ args, 0 ∉ a.2 := by
        intro a ha
        refine hplain a.2 ?_
        rw [← List.nil_append t.argv, ← List.map_nil, ← hargs]
        exact List.mem_map_of_mem ha
      refine .step (execArgs_spec hplain' (Nat.zero_le _) hfuel) ?_
      rw [hlen]
      refine .step (freeTokens_spec (.set l args)) ?_
      exact .pure ⟨rfl, congrArg _ hargs⟩
  next hpos =>
    obtain rfl : args = [] := List.eq_nil_of_length_eq_zero (by omega)
    rw [hlen]
    refine .step (freeTokens_spec hblocks) ?_
    exact .pure ⟨rfl, congrArg _ hargs⟩

theorem runCommand_refused (ht : RawScanner.tokenizeCommand inputStr = some t)
    (hargc : t.argc = -1) :
    Heap.Spec (runCommand A inputStr) 0 fun a m' =>
      a = (-1, []) ∧ ∃ lost, m' = copies lost ∧ lost.map Prod.snd = t.argv := by
  rw [runCommand, ht]
  refine .step (.require t) ?_
  refine .bind (addArgs_spec .unset t.argv) ?_
  rintro argv m ⟨args, hblocks, hargs⟩
  rw [hargc, if_neg (by decide)]
  refine .step (freeTokens_refused hblocks) ?_
  exact .pure ⟨rfl, args, rfl, hargs⟩

end HeapArgs

/-! ## The tokens of a text -/

namespace Scanner

variable {s : Scanner} {c : UInt8}

/-- No NUL was read. -/
def Plain (s : Scanner) : Prop := 0 ∉ s.argBuffer ∧ ∀ a ∈ s.argv, 0 ∉ a

theorem Plain.push (h : s.Plain) (hc : c ≠ 0) : (s.push c).Plain := by
  refine ⟨?_, h.2⟩
  rw [Scanner.push, List.mem_append, List.mem_singleton, not_or]
  exact ⟨h.1, hc.symm⟩

theorem Plain.addArg (h : s.Plain) {token : CStr} (htoken : 0 ∉ token) :
    (s.addArg token).Plain := by
  refine ⟨h.1, ?_⟩
  intro a ha
  rcases List.mem_append.mp ha with ha | ha
  · exact h.2 a ha
  · rw [List.mem_singleton.mp ha]
    exact htoken

theorem Plain.flush (h : s.Plain) : s.flush.Plain := by
  unfold Scanner.flush
  split_ifs
  · exact h
  · exact ⟨List.not_mem_nil, (h.addArg h.1).2⟩

theorem Plain.scan (h : s.Plain) (hc : c ≠ 0) (next : Option UInt8) : (s.scan c next).1.Plain := by
  have hpush := h.push hc
  have hone : 0 ∉ [c] := by simpa using hc.symm
  have htwo : 0 ∉ [c, c] := by simpa using hc.symm
  unfold Scanner.scan Scanner.scanOperator
  split_ifs
  all_goals first
    | exact hpush
    | exact h
    | exact h.flush
    | exact h.flush.addArg hone
    | exact h.flush.addArg htwo

theorem Plain.scanAll (h : s.Plain) {xs : CStr} (hxs : 0 ∉ xs) {s' : Scanner}
    (hscan : s.scanAll xs = some s') : s'.Plain := by
  induction s, xs using scanAll_induction with
  | nil s =>
    rw [← Option.some.inj hscan]
    exact h
  | full s c rest hroom =>
    rw [scanAll_full hroom] at hscan
    cases hscan
  | single s c rest hroom hflag ih =>
    rw [List.mem_cons, not_or] at hxs
    rw [scanAll_single hroom hflag] at hscan
    exact ih (h.scan (Ne.symm hxs.1) none) hxs.2 hscan
  | double s c rest hroom hflag ih =>
    rw [List.mem_cons, List.mem_cons, not_or, not_or] at hxs
    rw [scanAll_double hroom hflag] at hscan
    refine ih (h.flush.addArg ?_) hxs.2.2 hscan
    simpa using hxs.1

end Scanner

theorem nul_notMem_tokenizeCommand {inputStr : CStr} (hnul : 0 ∉ inputStr) {args : List CStr}
    (h : tokenizeCommand inputStr = some args) : ∀ a ∈ args, 0 ∉ a := by
  obtain ⟨s, hs, rfl⟩ := Option.map_eq_some_iff.mp h
  have hplain : ({} : Scanner).Plain := ⟨List.not_mem_nil, List.forall_mem_nil _⟩
  exact (hplain.scanAll hnul hs).flush.2

/-- The count is -1 or the number of arguments. -/
theorem RawScanner.argc_of_loop {inputStr : CStr} {fuel : Nat} {v : RawScanner} {t : Tokenized}
    (h : loop inputStr fuel v = some t) : t.argc = -1 ∨ t.argc = t.argv.length := by
  have hfinish {v : RawScanner} (h : v.finish = some t) : t.argc = t.argv.length := by
    obtain ⟨v', -, rfl⟩ := Option.map_eq_some_iff.mp h
    rfl
  induction fuel generalizing v with
  | zero =>
    rw [loop] at h
    split at h
    · cases h
    · exact Or.inr (hfinish h)
  | succ fuel ih =>
    rw [loop] at h
    split at h
    · split at h
      · cases h
      · exact Or.inl (by rw [← Option.some.inj h])
      · exact ih h
    · exact Or.inr (hfinish h)

/-- Every command makes valid accesses only, whatever addresses `malloc` and `realloc` pick. If it
is accepted, `execvp` sees its arguments, and all memory is free again afterwards. If it is
refused, the copies of the arguments that were complete by then stay allocated, and nothing
else does. -/
theorem tokens_are_freed (A : Allocator Empty) (inputStr : CStr) (hnul : 0 ∉ inputStr)
    (h : Heap Empty) :
    (∀ args, tokenizeCommand inputStr = some args →
      ∃ h', HeapArgs.runCommand A inputStr h = some (((args.length : Int), args), h') ∧
        ∀ l, h'.block l = h.block l) ∧
    (tokenizeCommand inputStr = none →
      ∃ h' lost, HeapArgs.runCommand A inputStr h = some ((-1, []), h') ∧
        h'.Holds h (HeapArgs.copies lost) ∧
        RawScanner.tokenizeCommand inputStr = some ⟨-1, lost.map Prod.snd⟩) := by
  have hfits : ({} : Scanner).Fits := Scanner.fits_of_argBuffer_eq_nil rfl rfl
  obtain ⟨t, hloop, haccepted, -⟩ := RawScanner.exists_loop hnul hfits (Nat.sub_le _ 0)
  have ht : RawScanner.tokenizeCommand inputStr = some t := hloop
  have haccepted' : t.accepted = tokenizeCommand inputStr := haccepted
  rw [Tokenized.accepted] at haccepted'
  constructor
  · intro args hargs
    rw [hargs] at haccepted'
    split at haccepted'
    · cases haccepted'
    next hne =>
      obtain rfl := Option.some.inj haccepted'
      have hargc := (RawScanner.argc_of_loop hloop).resolve_left hne
      obtain ⟨_, h', hrun, rfl, hblock⟩ := (HeapArgs.runCommand_accepted (A := A) ht hargc
        (nul_notMem_tokenizeCommand hnul hargs)).exists_run h
      exact ⟨h', by rw [hrun, hargc], hblock⟩
  · intro hargs
    rw [hargs] at haccepted'
    split at haccepted'
    next hargc =>
      obtain ⟨_, h', _, hrun, hholds, rfl, lost, rfl, hlost⟩ :=
        HeapArgs.runCommand_refused (A := A) ht hargc h h (.start h)
      refine ⟨h', lost, hrun, hholds, ?_⟩
      rw [ht, hlost, ← hargc]
    · cases haccepted'

/-- A command with three arguments, and one of which a copy is lost. -/
theorem tokens_are_freed_long :
    (∃ h', HeapArgs.runCommand (.next Empty) (ascii "ls -l 'a b'") .empty =
        some ((3, [ascii "ls", ascii "-l", ascii "a b"]), h') ∧ ∀ l, h'.block l = none) ∧
    ∃ h' lost, HeapArgs.runCommand (.next Empty) (ascii "ls " ++ longToken) .empty =
        some ((-1, []), h') ∧ h'.Holds .empty (HeapArgs.copies lost) ∧
      RawScanner.tokenizeCommand (ascii "ls " ++ longToken) = some ⟨-1, lost.map Prod.snd⟩ := by
  have hnul : 0 ∉ ascii "ls " ++ longToken := by
    rw [List.mem_append, longToken, List.mem_replicate]
    exact fun h => h.elim (by decide) fun h => absurd h.2 (by decide)
  have haccepted : tokenizeCommand (ascii "ls -l 'a b'") =
      some [ascii "ls", ascii "-l", ascii "a b"] := by decide +kernel
  have hrefused : tokenizeCommand (ascii "ls " ++ longToken) = none := by decide +kernel
  exact ⟨(tokens_are_freed (.next Empty) _ (by decide) .empty).1 _ haccepted,
    (tokens_are_freed (.next Empty) _ hnul .empty).2 hrefused⟩

end AdMQ
