import BlindSig.SignCommand

/-! Calls of `sign` one after another, each by a process of its own that nothing interrupts: what
they answer and leave in the key file, and the same as a run of the interruptible steps. -/
namespace BlindSig

section Session

variable {Key Com Sig Coin Ident : Type} (P : SignProgram Key Com Sig Coin Ident)

namespace SignProgram

/-- The signature file and the key file after a call. -/
def invoke (keyFile comFile : List Byte) (coin : Coin) : Option (List Byte × List Byte) := do
  let key ← P.readKey keyFile
  let com ← P.readCommitment comFile
  let (sig, key') ← P.sign key com coin
  return (P.writeSig sig, ← P.writeKey key')

/-- A call that fails leaves the key file as it is. -/
def session (keyFile : List Byte) : List (List Byte × Coin) → List Byte × List (Option (List Byte))
  | [] => (keyFile, [])
  | call :: calls =>
    match P.invoke keyFile call.1 call.2 with
    | some (sigFile, keyFile') =>
      let rest := session keyFile' calls
      (rest.1, some sigFile :: rest.2)
    | none =>
      let rest := session keyFile calls
      (rest.1, none :: rest.2)

/-- The answer to a call after `n` signatures. One that fails has a commitment file that is none,
comes when the leaves are used up, or searches for a nonce without end. -/
def Answered (height : Nat) (good : Com → Nat → List Byte → Prop)
    (endless : Com → Nat → Coin → Prop) (n : Nat) (call : List Byte × Coin) :
    Option (List Byte) → Prop
  | some sigFile => ∃ com, P.readCommitment call.1 = some com ∧ n < 2 ^ height ∧ good com n sigFile
  | none => ∀ com, P.readCommitment call.1 = some com → n = 2 ^ height ∨ endless com n call.2

/-- Every call is answered, and the signatures are counted. -/
def AllAnswered (height : Nat) (good : Com → Nat → List Byte → Prop)
    (endless : Com → Nat → Coin → Prop) :
    Nat → List (List Byte × Coin) → List (Option (List Byte)) → Prop
  | _, [], [] => True
  | n, call :: calls, answer :: answers => P.Answered height good endless n call answer ∧
    AllAnswered height good endless (if answer.isSome then n + 1 else n) calls answers
  | _, _, _ => False

/-- A key file with a counter serves one call. -/
def Serves (file : Nat → List Byte) (height : Nat) (good : Com → Nat → List Byte → Prop)
    (endless : Com → Nat → Coin → Prop) : Prop :=
  ∀ n ≤ 2 ^ height, ∀ call : List Byte × Coin,
    P.Answered height good endless n call ((P.invoke (file n) call.1 call.2).map Prod.fst) ∧
      ∀ answer, P.invoke (file n) call.1 call.2 = some answer → answer.2 = file (n + 1)

variable {P}

theorem invoke_eq {keyFile comFile keyFile' : List Byte} {key key' : Key} {com : Com} {sig : Sig}
    {coin : Coin} (read : P.readKey keyFile = some key) (parsed : P.readCommitment comFile = some com)
    (signed : P.sign key com coin = some (sig, key')) (written : P.writeKey key' = some keyFile') :
    P.invoke keyFile comFile coin = some (P.writeSig sig, keyFile') := by
  simp only [invoke, read, parsed, signed, written, Option.bind_eq_bind, Option.bind_some,
    Option.pure_def]

variable {file : Nat → List Byte} {height : Nat} {good : Com → Nat → List Byte → Prop}
  {endless : Com → Nat → Coin → Prop}

/-- The key file counts the signatures of a session. -/
theorem Serves.session (serves : P.Serves file height good endless)
    (calls : List (List Byte × Coin)) {n : Nat} (inside : n ≤ 2 ^ height) :
    (P.session (file n) calls).1 =
        file (n + (P.session (file n) calls).2.countP Option.isSome) ∧
      P.AllAnswered height good endless n calls (P.session (file n) calls).2 := by
  induction calls generalizing n with
  | nil => exact ⟨rfl, trivial⟩
  | cons call calls ih =>
    obtain ⟨answered, moves⟩ := serves n inside call
    unfold SignProgram.session
    cases answer : P.invoke (file n) call.1 call.2 with
    | none =>
      rw [answer] at answered
      exact ⟨(ih inside).1.trans (by simp), answered, (ih inside).2⟩
    | some result =>
      obtain ⟨sigFile, keyFile'⟩ := result
      obtain rfl : keyFile' = file (n + 1) := moves _ answer
      rw [answer] at answered
      obtain ⟨com, read, room, goods⟩ := answered
      obtain ⟨counted, rest⟩ := ih room
      refine ⟨counted.trans ?_, ⟨com, read, room, goods⟩, rest⟩
      simp only [List.countP_cons, Option.isSome_some, if_true]
      rw [Nat.add_comm _ 1, ← Nat.add_assoc]

/-- A key in the file that reads back and signs serves. -/
theorem Serves.of_sign (key : Nat → Key)
    (reads : ∀ n ≤ 2 ^ height, P.readKey (file n) = some (key n))
    (writes : ∀ n ≤ 2 ^ height, P.writeKey (key n) = some (file n))
    (signs : ∀ n ≤ 2 ^ height, ∀ com coin sig key', P.sign (key n) com coin = some (sig, key') →
      n < 2 ^ height ∧ key' = key (n + 1) ∧ good com n (P.writeSig sig))
    (refuses : ∀ n ≤ 2 ^ height, ∀ com coin, P.sign (key n) com coin = none →
      n = 2 ^ height ∨ endless com n coin) : P.Serves file height good endless := by
  intro n inside call
  simp only [invoke, reads n inside, Option.bind_eq_bind, Option.bind_some]
  cases parsed : P.readCommitment call.1 with
  | none =>
    refine ⟨fun com read => ?_, nofun⟩
    rw [parsed] at read
    cases read
  | some com =>
    simp only [Option.bind_some]
    cases made : P.sign (key n) com call.2 with
    | none =>
      refine ⟨fun com' read => ?_, nofun⟩
      obtain rfl := Option.some.inj (parsed.symm.trans read)
      exact refuses n inside com call.2 made
    | some result =>
      obtain ⟨sig, key'⟩ := result
      obtain ⟨room, rfl, goods⟩ := signs n inside com call.2 sig key' made
      simp only [Option.bind_some, writes (n + 1) room]
      refine ⟨⟨com, parsed, room, goods⟩, ?_⟩
      rintro _ ⟨⟩
      rfl

end SignProgram

end Session

section Serial

open SignCommand

variable {Key Com Sig Coin Ident : Type} {P : SignProgram Key Com Sig Coin Ident}

namespace SignProgram

/-- A file that one `write` takes. -/
def OneWrite (chunk : Nat) (file : List Byte) : Prop := file ≠ [] ∧ file.length ≤ chunk

variable (P) in
/-- A program whose files one `write` takes, from allowed key files to allowed key files. -/
def Fits (chunk : Nat) (allowed : List Byte → Prop) : Prop :=
  ∀ {keyFile key com coin sig key'}, allowed keyFile → P.readKey keyFile = some key →
    P.sign key com coin = some (sig, key') → OneWrite chunk (P.writeSig sig) ∧
      ∃ keyFile', P.writeKey key' = some keyFile' ∧ OneWrite chunk keyFile' ∧ allowed keyFile'

/-- A call that signs: the files, and the signature that stood in one of them. -/
structure Signs (P : SignProgram Key Com Sig Coin Ident) (s s' : State Key Com Sig)
    (sigFile keyFile' : List Byte) : Prop where
  key : s'.signerKey = keyFile'
  file : s'.xmssSig = sigFile
  released : ∃ r, s'.released = r :: s.released ∧ P.readCommitment s.commitment = some r.com ∧
    P.writeSig r.sig = sigFile

variable {s : State Key Com Sig} {p chunk : Nat} {coin : Coin} {allowed : List Byte → Prop}

theorem execute_append (s : State Key Com Sig) (first second : List (Action Coin)) :
    execute P s (first ++ second) = execute P (execute P s first) second := List.foldl_append

/-- A process that nothing interrupts does what the call does. -/
theorem execute_invoke (coin : Coin) (fits : P.Fits chunk allowed) (idle : s.procs p = .idle)
    (start : allowed s.signerKey) :
    ∃ s', execute P s (List.replicate 9 (.run p chunk coin)) = s' ∧
      (∀ q, q ≠ p → s'.procs q = s.procs q) ∧ s'.procs p = .stopped ∧ allowed s'.signerKey ∧
      match P.invoke s.signerKey s.commitment coin with
      | some (sigFile, keyFile') => Signs P s s' sigFile keyFile'
      | none => s'.signerKey = s.signerKey ∧ s'.released = s.released := by
  have others (proc : Proc Key Com Sig) : ∀ q, q ≠ p → Function.update s.procs p proc q = s.procs q :=
    fun q other => Function.update_of_ne other ..
  cases key_read : P.readKey s.signerKey with
  | none =>
    have answer : P.invoke s.signerKey s.commitment coin = none := by
      simp only [invoke, key_read, Option.bind_eq_bind, Option.bind_none]
    simp only [answer, execute, List.replicate, List.foldl, step, advance, idle, key_read,
      State.attempt, State.leave, State.goto, Function.update_self, exists_eq_left']
    exact ⟨others _, trivial, start, trivial, trivial⟩
  | some key =>
    cases com_read : P.readCommitment s.commitment with
    | none =>
      have answer : P.invoke s.signerKey s.commitment coin = none := by
        simp only [invoke, key_read, com_read, Option.bind_eq_bind, Option.bind_some, Option.bind_none]
      simp only [answer, execute, List.replicate, List.foldl, step, advance, idle, key_read, com_read,
        State.attempt, State.leave, State.goto, Function.update_self, Function.update_idem,
        exists_eq_left']
      exact ⟨others _, trivial, start, trivial, trivial⟩
    | some com =>
      cases signed : P.sign key com coin with
      | none =>
        have answer : P.invoke s.signerKey s.commitment coin = none := by
          simp only [invoke, key_read, com_read, signed, Option.bind_eq_bind, Option.bind_some,
            Option.bind_none]
        simp only [answer, execute, List.replicate, List.foldl, step, advance, idle, key_read,
          com_read, signed, State.attempt, State.leave, State.goto, Function.update_self,
          Function.update_idem, exists_eq_left']
        exact ⟨others _, trivial, start, trivial, trivial⟩
      | some result =>
        obtain ⟨sig, key'⟩ := result
        obtain ⟨⟨some_sig, room_sig⟩, file, written, ⟨some_key, room_key⟩, kept⟩ :=
          fits start key_read signed
        have whole (file : List Byte) (room : file.length ≤ chunk) :
            min file.length (0 + chunk + 1) = file.length := Nat.min_eq_left (by omega)
        have front (file : List Byte) :
            writeAt [] 0 ((file.drop 0).take (file.length - 0)) = file := by simp [writeAt]
        have answer : P.invoke s.signerKey s.commitment coin = some (P.writeSig sig, file) :=
          invoke_eq key_read com_read signed written
        simp only [answer, execute, List.replicate, List.foldl, step, advance, idle, key_read,
          com_read, signed, written, State.attempt, State.leave, State.goto, Function.update_self,
          Function.update_idem, List.length_pos_iff.mpr some_sig, List.length_pos_iff.mpr some_key,
          if_true, whole _ room_sig, whole _ room_key, Nat.lt_irrefl, if_false, front,
          exists_eq_left']
        exact ⟨others _, trivial, kept, rfl, rfl, ⟨key, com, sig⟩, rfl, com_read, rfl⟩

/-- Process after process, each on a commitment of its own. -/
def serial (chunk : Nat) : Nat → List (List Byte × Coin) → List (Action Coin)
  | _, [] => []
  | p, call :: calls =>
    .commit call.1 :: List.replicate 9 (.run p chunk call.2) ++ serial chunk (p + 1) calls

/-- The steps of the processes make the session. -/
theorem execute_serial (fits : P.Fits chunk allowed) (calls : List (List Byte × Coin))
    {s : State Key Com Sig} {p : Nat} (idle : ∀ q, p ≤ q → s.procs q = .idle)
    (start : allowed s.signerKey) :
    (execute P s (serial chunk p calls)).signerKey = (P.session s.signerKey calls).1 ∧
      (execute P s (serial chunk p calls)).released.map (fun r => P.writeSig r.sig) =
        ((P.session s.signerKey calls).2.filterMap id).reverse ++
          s.released.map fun r => P.writeSig r.sig := by
  induction calls generalizing s p with
  | nil => exact ⟨rfl, rfl⟩
  | cons call calls ih =>
    obtain ⟨s', run, others, -, kept, effect⟩ := execute_invoke call.2
      (s := { s with commitment := call.1 }) fits (idle p (Nat.le_refl p)) start
    have idle' (q : Nat) (later : p + 1 ≤ q) : s'.procs q = .idle :=
      (others q (by omega)).trans (idle q (by omega))
    have split : execute P s (serial chunk p (call :: calls)) =
        execute P s' (serial chunk (p + 1) calls) := by
      rw [← run, serial, List.cons_append, ← execute_append]
      rfl
    obtain ⟨key, released⟩ := ih idle' kept
    rw [split, session]
    cases answer : P.invoke s.signerKey call.1 call.2 with
    | none =>
      simp only [answer] at effect
      rw [effect.1] at key released
      rw [effect.2] at released
      exact ⟨key, released⟩
    | some result =>
      obtain ⟨sigFile, keyFile'⟩ := result
      simp only [answer] at effect
      obtain ⟨r, added, -, file⟩ := effect.released
      rw [effect.key] at key released
      rw [added, List.map_cons, file] at released
      refine ⟨key, released.trans ?_⟩
      simp

/-- Two signatures on different commitments stood in the file. -/
def TwoSigned (s : State Key Com Sig) : Prop := ∃ a b, s.released = [b, a] ∧ a.com ≠ b.com

theorem serial_two (fits : P.Fits chunk allowed) {keyFile keyFile₁ keyFile₂ comFile comFile' commitment
    xmssSig sigFile sigFile' : List Byte} {com com' : Com} {coin' : Coin} (start : allowed keyFile)
    (first : P.invoke keyFile comFile coin = some (sigFile, keyFile₁))
    (second : P.invoke keyFile₁ comFile' coin' = some (sigFile', keyFile₂))
    (read : P.readCommitment comFile = some com) (read' : P.readCommitment comFile' = some com')
    (different : com ≠ com') :
    TwoSigned (execute P (initial keyFile commitment xmssSig)
      (serial chunk 0 [(comFile, coin), (comFile', coin')])) := by
  obtain ⟨s₁, run, others, -, kept, effect⟩ := execute_invoke coin (p := 0)
    (s := initial keyFile comFile xmssSig) fits rfl start
  simp only [initial, first] at effect
  obtain ⟨a, released, known, -⟩ := effect.released
  obtain ⟨s₂, run', -, -, -, effect'⟩ := execute_invoke coin' (p := 1)
    (s := { s₁ with commitment := comFile' }) fits (others 1 Nat.one_ne_zero) kept
  rw [effect.key] at effect'
  simp only [second] at effect'
  obtain ⟨b, released', known', -⟩ := effect'.released
  have whole : execute P (initial keyFile commitment xmssSig)
      (serial chunk 0 [(comFile, coin), (comFile', coin')]) = s₂ := by
    rw [← run', ← run]
    rfl
  refine ⟨a, b, by rw [whole, released', released], ?_⟩
  obtain rfl := Option.some.inj (known.symm.trans read)
  obtain rfl := Option.some.inj (known'.symm.trans read')
  exact different

theorem orderlyRun_append {first second : List (Action Coin)} {s : State Key Com Sig} :
    OrderlyRun P s (first ++ second) ↔
      OrderlyRun P s first ∧ OrderlyRun P (execute P s first) second := by
  induction first generalizing s with
  | nil => simp [OrderlyRun, execute]
  | cons action first ih =>
    rw [List.cons_append, OrderlyRun, OrderlyRun, ih, and_assoc]
    rfl

/-- Processes that run one after another are orderly. -/
theorem serial_orderly (fits : P.Fits chunk allowed) (calls : List (List Byte × Coin))
    {s : State Key Com Sig} {p : Nat} (past : ∀ q, q < p → (s.procs q).inside = false)
    (idle : ∀ q, p ≤ q → s.procs q = .idle) (start : allowed s.signerKey) :
    OrderlyRun P s (serial chunk p calls) := by
  induction calls generalizing s p with
  | nil => trivial
  | cons call calls ih =>
    let before : State Key Com Sig := { s with commitment := call.1 }
    obtain ⟨s', run, others, stopped, kept, -⟩ := execute_invoke call.2
      (s := before) fits (idle p (Nat.le_refl p)) start
    have alone (q : Nat) (other : q ≠ p) : (s.procs q).inside = false := by
      rcases Nat.lt_or_gt_of_ne other with earlier | later
      · exact past q earlier
      · rw [idle q (Nat.le_of_lt later)]
        rfl
    refine ⟨trivial, orderlyRun_append.mpr ⟨orderly_alone (s := before) alone 9 chunk call.2, ?_⟩⟩
    have same : execute P (step P s (.commit call.1)) (List.replicate 9 (.run p chunk call.2)) = s' :=
      run
    rw [same]
    refine ih (fun q before => ?_) (fun q later => ?_) kept
    · rcases Nat.lt_succ_iff_lt_or_eq.mp before with earlier | rfl
      · rw [others q (Nat.ne_of_lt earlier)]
        exact past q earlier
      · rw [stopped]
        rfl
    · exact (others q (by omega)).trans (idle q (by omega))

variable (P) in
/-- The steps of processes one after another leave this key file behind, have sent the answers of the
session and used no leaf for two commitments. -/
def StepsMake (chunk : Nat) (keyFile : List Byte) (calls : List (List Byte × Coin))
    (keyFile' : List Byte) (answers : List (Option (List Byte))) : Prop :=
  ∀ commitment xmssSig, ∃ s,
    execute P (initial keyFile commitment xmssSig) (serial chunk 0 calls) = s ∧
      s.signerKey = keyFile' ∧
      s.released.map (fun r => P.writeSig r.sig) = (answers.filterMap id).reverse ∧ LeafSafe P s

theorem stepsMake_session (lawful : Lawful P) (fits : P.Fits chunk allowed) {keyFile : List Byte}
    (start : allowed keyFile) (calls : List (List Byte × Coin)) {keyFile' : List Byte}
    {answers : List (Option (List Byte))} (ran : P.session keyFile calls = (keyFile', answers)) :
    P.StepsMake chunk keyFile calls keyFile' answers := by
  intro commitment xmssSig
  obtain ⟨key, released⟩ := execute_serial (s := initial keyFile commitment xmssSig) (p := 0) fits
    calls (fun _ _ => rfl) start
  have orderly := serial_orderly (s := initial keyFile commitment xmssSig) (p := 0) fits calls nofun
    (fun _ _ => rfl) start
  refine ⟨_, rfl, key.trans (congrArg Prod.fst ran), ?_, leafSafe_of_orderly lawful _ _ _ _ orderly⟩
  rw [released]
  exact (List.append_nil _).trans (congrArg (fun r => (r.2.filterMap id).reverse) ran)

end SignProgram

end Serial

end BlindSig
