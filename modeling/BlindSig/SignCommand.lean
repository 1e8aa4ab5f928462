import BlindSig.Lib.Codec
import Mathlib.Data.List.Pairwise
import Mathlib.Logic.Function.Basic

/-! `sign` processes on one directory, without a lock. A process reads `signer_key.bin` and
`commitment.bin`, signs, writes `xmss_sig.bin` and then `signer_key.bin`, both in place. Between any
two system calls another process may run, the next call may fail, or the process may be killed. -/
namespace BlindSig

/-- What the command of a program computes. `leaves` names the next leaf of every key of a key file,
`used` the leaves of a signature; a program that does not report a failed write goes on after it. -/
structure SignProgram (Key Com Sig Coin Ident : Type) where
  readKey : List Byte → Option Key
  readCommitment : List Byte → Option Com
  sign : Key → Com → Coin → Option (Sig × Key)
  writeKey : Key → Option (List Byte)
  writeSig : Sig → List Byte
  reportsWrites : Bool
  leaves : Key → List (Ident × Nat)
  used : Key → Sig → List (Ident × Nat)

/-- A file is opened, which truncates it, and written from the front; `done` bytes are in it. -/
inductive Writing where
  | closed
  | opened (done : Nat)

/-- Bytes at an offset of a file; a hole reads as zeros. -/
def writeAt (file : List Byte) (off : Nat) (bytes : List Byte) : List Byte :=
  (file ++ List.replicate (off - file.length) 0).take off ++ bytes ++ file.drop (off + bytes.length)

variable {Key Com Sig Coin Ident : Type}

namespace SignCommand

inductive Proc (Key Com Sig : Type) where
  | idle
  | loaded (key : Key)
  | ready (key : Key) (com : Com)
  | sending (key : Key) (com : Com) (sig : Sig) (key' : Key) (stage : Writing)
  | keeping (key' : Key) (stage : Writing)
  | stopped

/-- A signature that stood in `xmss_sig.bin`, with the key and the commitment it was made from. -/
structure Released (Key Com Sig : Type) where
  key : Key
  com : Com
  sig : Sig

structure State (Key Com Sig : Type) where
  signerKey : List Byte
  commitment : List Byte
  xmssSig : List Byte
  procs : Nat → Proc Key Com Sig
  released : List (Released Key Com Sig)

namespace State

def goto (s : State Key Com Sig) (p : Nat) (proc : Proc Key Com Sig) : State Key Com Sig :=
  { s with procs := Function.update s.procs p proc }

def leave (s : State Key Com Sig) (p : Nat) : State Key Com Sig := s.goto p .stopped

/-- A step that may end the process. -/
def attempt {α : Type} (s : State Key Com Sig) (p : Nat) (result : Option α)
    (next : α → State Key Com Sig) : State Key Com Sig :=
  match result with
  | some x => next x
  | none => s.leave p

end State

/-- The next system call of process `p` succeeds; a `write` takes at least one byte. -/
def advance (P : SignProgram Key Com Sig Coin Ident) (s : State Key Com Sig) (p chunk : Nat)
    (coin : Coin) : State Key Com Sig :=
  match s.procs p with
  | .idle => s.attempt p (P.readKey s.signerKey) fun key => s.goto p (.loaded key)
  | .loaded key => s.attempt p (P.readCommitment s.commitment) fun com => s.goto p (.ready key com)
  | .ready key com => s.attempt p (P.sign key com coin) fun (sig, key') =>
      s.goto p (.sending key com sig key' .closed)
  | .sending key com sig key' .closed =>
      { s.goto p (.sending key com sig key' (.opened 0)) with xmssSig := [] }
  | .sending key com sig key' (.opened done) =>
      let file := P.writeSig sig
      if done < file.length then
        let next := min file.length (done + chunk + 1)
        { s.goto p (.sending key com sig key' (.opened next)) with
          xmssSig := writeAt s.xmssSig done ((file.drop done).take (next - done))
          released := if next = file.length then { key, com, sig } :: s.released else s.released }
      else s.goto p (.keeping key' .closed)
  | .keeping key' .closed => s.attempt p (P.writeKey key') fun _ =>
      { s.goto p (.keeping key' (.opened 0)) with signerKey := [] }
  | .keeping key' (.opened done) => s.attempt p (P.writeKey key') fun file =>
      if done < file.length then
        let next := min file.length (done + chunk + 1)
        { s.goto p (.keeping key' (.opened next)) with
          signerKey := writeAt s.signerKey done ((file.drop done).take (next - done)) }
      else s.leave p
  | .stopped => s

/-- It fails: the process ends, unless it is a write of an open file and goes unreported. -/
def failing (P : SignProgram Key Com Sig Coin Ident) (s : State Key Com Sig) (p : Nat) :
    State Key Com Sig :=
  match s.procs p with
  | .sending _ _ _ key' (.opened _) =>
    if P.reportsWrites then s.leave p else s.goto p (.keeping key' .closed)
  | _ => s.leave p

/-- A user leaves another commitment, or a process runs on, fails or is killed. -/
inductive Action (Coin : Type) where
  | commit (file : List Byte)
  | run (p chunk : Nat) (coin : Coin)
  | fail (p : Nat)
  | halt (p : Nat)

def step (P : SignProgram Key Com Sig Coin Ident) (s : State Key Com Sig) :
    Action Coin → State Key Com Sig
  | .commit file => { s with commitment := file }
  | .run p chunk coin => advance P s p chunk coin
  | .fail p => failing P s p
  | .halt p => s.leave p

def execute (P : SignProgram Key Com Sig Coin Ident) (s : State Key Com Sig)
    (actions : List (Action Coin)) : State Key Com Sig := actions.foldl (step P) s

/-- No process has started yet, whatever the files hold. -/
def initial (signerKey commitment xmssSig : List Byte) : State Key Com Sig where
  signerKey
  commitment
  xmssSig
  procs := fun _ => .idle
  released := []

/-- Signatures on different commitments use different leaves. -/
def LeafSafe (P : SignProgram Key Com Sig Coin Ident) (s : State Key Com Sig) : Prop :=
  ∀ a ∈ s.released, ∀ b ∈ s.released, ∀ u ∈ P.used a.key a.sig, u ∈ P.used b.key b.sig →
    a.com = b.com

section Orderly

/-- Is the process under way? -/
def Proc.inside : Proc Key Com Sig → Bool
  | .idle | .stopped => false
  | _ => true

/-- Has the process sent its signature and not yet kept the key? -/
def owes (P : SignProgram Key Com Sig Coin Ident) : Proc Key Com Sig → Bool
  | .sending _ _ sig _ (.opened done) => decide ((P.writeSig sig).length ≤ done)
  | .keeping _ .closed => true
  | .keeping key' (.opened done) =>
    match P.writeKey key' with
    | some file => decide (done < file.length)
    | none => true
  | _ => false

/-- A process reads the key file only when no other is under way, and none ends between its
signature and its key. -/
def Orderly (P : SignProgram Key Com Sig Coin Ident) (s : State Key Com Sig) :
    Action Coin → Prop
  | .commit _ => True
  | .run p _ _ => s.procs p = .idle → ∀ q, q ≠ p → (s.procs q).inside = false
  | .fail p | .halt p => owes P (s.procs p) = false

def OrderlyRun (P : SignProgram Key Com Sig Coin Ident) :
    State Key Com Sig → List (Action Coin) → Prop
  | _, [] => True
  | s, action :: actions => Orderly P s action ∧ OrderlyRun P (step P s action) actions

end Orderly

section Invariant

/-- What the argument needs of a program: a signature uses the next leaves of its key, all at one
level, and the key after it, which can be written and is read back, has none of them left. -/
structure Lawful (P : SignProgram Key Com Sig Coin Ident) : Prop where
  uses : ∀ {key com coin sig key'}, P.sign key com coin = some (sig, key') →
    ∀ u ∈ P.used key sig, u ∈ P.leaves key
  level : ∀ {key com coin sig key'}, P.sign key com coin = some (sig, key') →
    ∀ u ∈ P.leaves key, ∀ v ∈ P.leaves key, u.2 = v.2
  advances : ∀ {key com coin sig key'}, P.sign key com coin = some (sig, key') →
    ∀ v ∈ P.leaves key', ∃ u ∈ P.leaves key, u.1 = v.1 ∧ u.2 < v.2
  writes : ∀ {key com coin sig key'}, P.sign key com coin = some (sig, key') →
    ∃ file, P.writeKey key' = some file ∧
      ∀ key'', P.readKey file = some key'' → P.leaves key'' = P.leaves key'

variable {P : SignProgram Key Com Sig Coin Ident}

variable (P) in
/-- The leaves of the released signatures lie below the next ones of the key. -/
def Below (released : List (Released Key Com Sig)) (key : Key) : Prop :=
  ∀ r ∈ released, ∀ u ∈ P.used r.key r.sig, ∀ v ∈ P.leaves key, u.1 = v.1 → u.2 < v.2

variable (P) in
def Signed (key : Key) (com : Com) (sig : Sig) (key' : Key) : Prop :=
  ∃ coin, P.sign key com coin = some (sig, key')

variable {released : List (Released Key Com Sig)} {key key' : Key} {com : Com} {sig : Sig}

theorem Below.advance (lawful : Lawful P) (below : Below P released key)
    (signed : Signed P key com sig key') : Below P released key' := by
  obtain ⟨coin, signed⟩ := signed
  intro r member u used v next same
  obtain ⟨w, before, ident, less⟩ := lawful.advances signed v next
  exact (below r member u used w before (same.trans ident.symm)).trans less

theorem Below.release (lawful : Lawful P) (below : Below P released key)
    (signed : Signed P key com sig key') : Below P ({ key, com, sig } :: released) key' := by
  have older := below.advance lawful signed
  obtain ⟨coin, signed⟩ := signed
  intro r member u used v next same
  rcases List.mem_cons.mp member with rfl | old
  · obtain ⟨w, before, ident, less⟩ := lawful.advances signed v next
    rwa [lawful.level signed u (lawful.uses signed u used) w before]
  · exact older r old u used v next same

variable (P) in
/-- No two released signatures share a leaf. -/
def Distinct (released : List (Released Key Com Sig)) : Prop :=
  released.Pairwise fun a b => ∀ u ∈ P.used a.key a.sig, u ∉ P.used b.key b.sig

theorem Distinct.release (lawful : Lawful P) (distinct : Distinct P released)
    (below : Below P released key) (signed : Signed P key com sig key') :
    Distinct P ({ key, com, sig } :: released) := by
  obtain ⟨coin, signed⟩ := signed
  refine List.pairwise_cons.mpr ⟨fun b old u used again => ?_, distinct⟩
  exact Nat.lt_irrefl _ (below b old u again u (lawful.uses signed u used) rfl)

theorem Distinct.leafSafe {s : State Key Com Sig} (distinct : Distinct P s.released) :
    LeafSafe P s := by
  intro a first b second
  refine List.Pairwise.forall_of_forall_of_flip
    (R := fun a b => ∀ u ∈ P.used a.key a.sig, u ∈ P.used b.key b.sig → a.com = b.com)
    (fun _ _ _ _ _ => rfl) ?_ ?_ first second
  · exact distinct.imp fun apart u used again => absurd again (apart u used)
  · exact distinct.imp fun apart u again used => absurd again (apart u used)

/-- Bytes after the front of a file that was written so far. -/
theorem writeAt_take {file : List Byte} {done next : Nat} (forth : done ≤ next)
    (inside : next ≤ file.length) :
    writeAt (file.take done) done ((file.drop done).take (next - done)) = file.take next := by
  have length : (file.take done).length = done := by
    rw [List.length_take, Nat.min_eq_left (forth.trans inside)]
  have rest : (file.take done).drop (done + ((file.drop done).take (next - done)).length) = [] :=
    List.drop_eq_nil_of_le (by rw [length]; exact Nat.le_add_right _ _)
  rw [writeAt, rest, length, Nat.sub_self, List.replicate_zero, List.append_nil, List.append_nil,
    List.take_of_length_le (Nat.le_of_eq length), List.take_drop, Nat.add_sub_cancel' forth]
  have split := List.take_append_drop done (file.take next)
  rwa [List.take_take, Nat.min_eq_left forth] at split

variable (P) in
/-- What a process knows. -/
def ProcOk (s : State Key Com Sig) : Proc Key Com Sig → Prop
  | .loaded key | .ready key _ => Below P s.released key
  | .sending key com sig key' stage => Signed P key com sig key' ∧
    if owes P (.sending key com sig key' stage) then Below P s.released key'
    else Below P s.released key
  | .keeping key' stage => (∃ key com sig, Signed P key com sig key') ∧ Below P s.released key' ∧
    ∀ done, stage = .opened done → ∀ file, P.writeKey key' = some file →
      s.signerKey = file.take done
  | _ => True

variable (P) in
/-- One process at a time is under way, and when none owes a key the file offers unused leaves. -/
structure Inv (s : State Key Com Sig) : Prop where
  alone : ∀ p q, (s.procs p).inside = true → (s.procs q).inside = true → p = q
  fresh : (∀ p, owes P (s.procs p) = false) → ∀ key, P.readKey s.signerKey = some key →
    Below P s.released key
  procs : ∀ p, ProcOk P s (s.procs p)
  distinct : Distinct P s.released

theorem procOk_of_outside {s : State Key Com Sig} {proc : Proc Key Com Sig}
    (outside : proc.inside = false) : ProcOk P s proc := by
  cases proc with
  | idle => trivial
  | stopped => trivial
  | _ => cases outside

theorem State.leave_self (s : State Key Com Sig) (p : Nat) : (s.leave p).procs p = .stopped :=
  Function.update_self ..

theorem State.leave_other (s : State Key Com Sig) {p q : Nat} (different : q ≠ p) :
    (s.leave p).procs q = s.procs q := Function.update_of_ne different ..

theorem initial_inv (signerKey commitment xmssSig : List Byte) :
    Inv P (initial signerKey commitment xmssSig) where
  alone _ _ inside := by cases inside
  fresh _ _ _ _ member := by cases member
  procs _ := trivial
  distinct := List.Pairwise.nil

namespace Inv

variable {s : State Key Com Sig} {p : Nat}

theorem others (inv : Inv P s) (inside : (s.procs p).inside = true) :
    ∀ q, q ≠ p → (s.procs q).inside = false := by
  intro q different
  cases under : (s.procs q).inside with
  | false => rfl
  | true => exact absurd (inv.alone q p under inside) different

/-- The only process under way moves on. -/
theorem move {s' : State Key Com Sig} {proc : Proc Key Com Sig}
    (others : ∀ q, q ≠ p → (s.procs q).inside = false)
    (procs : s'.procs = Function.update s.procs p proc)
    (fresh : owes P proc = false → ∀ key, P.readKey s'.signerKey = some key →
      Below P s'.released key)
    (ok : ProcOk P s' proc) (distinct : Distinct P s'.released) : Inv P s' where
  alone q r first second := by
    have here (q : Nat) (inside : (s'.procs q).inside = true) : q = p := by
      by_contra different
      rw [procs, Function.update_of_ne different, others q different] at inside
      cases inside
    rw [here q first, here r second]
  fresh settled := by
    have mine := settled p
    rw [procs, Function.update_self] at mine
    exact fresh mine
  procs q := by
    rcases eq_or_ne q p with rfl | different
    · rw [procs, Function.update_self]
      exact ok
    · rw [procs, Function.update_of_ne different]
      exact procOk_of_outside (others q different)
  distinct := distinct

theorem leave (inv : Inv P s) (settled : owes P (s.procs p) = false) : Inv P (s.leave p) where
  alone q r first second := by
    have before (q : Nat) (inside : ((s.leave p).procs q).inside = true) :
        (s.procs q).inside = true := by
      rcases eq_or_ne q p with rfl | different
      · rw [State.leave_self] at inside
        cases inside
      · rwa [State.leave_other s different] at inside
    exact inv.alone q r (before q first) (before r second)
  fresh others := by
    refine inv.fresh fun q => ?_
    rcases eq_or_ne q p with rfl | different
    · exact settled
    · rw [← State.leave_other s different]
      exact others q
  procs q := by
    rcases eq_or_ne q p with rfl | different
    · rw [State.leave_self]
      trivial
    · rw [State.leave_other s different]
      exact inv.procs q
  distinct := inv.distinct

/-- Nobody owes a key when the only process under way does not. -/
theorem settled (others : ∀ q, q ≠ p → (s.procs q).inside = false)
    (mine : owes P (s.procs p) = false) : ∀ q, owes P (s.procs q) = false := by
  intro q
  rcases eq_or_ne q p with rfl | different
  · exact mine
  · have outside := others q different
    cases proc : s.procs q with
    | idle => rfl
    | stopped => rfl
    | _ =>
      rw [proc] at outside
      cases outside

/-- A key file in place offers what the key in memory offers. -/
theorem kept (lawful : Lawful P) {s' : State Key Com Sig} {key' : Key} {done : Nat}
    (signed : ∃ key com sig, Signed P key com sig key') (below : Below P s'.released key')
    (front : ∀ file, P.writeKey key' = some file → s'.signerKey = file.take done)
    (paid : owes P (.keeping key' (.opened done) : Proc Key Com Sig) = false) :
    ∀ key, P.readKey s'.signerKey = some key → Below P s'.released key := by
  obtain ⟨_, _, _, _, signed⟩ := signed
  obtain ⟨file, written, reads⟩ := lawful.writes signed
  intro key read
  simp only [owes, written, decide_eq_false_iff_not, Nat.not_lt] at paid
  rw [front file written, List.take_of_length_le paid] at read
  intro r member u used v next
  rw [reads key read] at next
  exact below r member u used v next

/-- A process that writes its signature. -/
theorem advance_sending (lawful : Lawful P) (inv : Inv P s) {key key' : Key} {com : Com} {sig : Sig}
    {stage : Writing} (proc : s.procs p = .sending key com sig key' stage) (chunk : Nat)
    (coin : Coin) : Inv P (advance P s p chunk coin) := by
  have others := inv.others (p := p) (by rw [proc]; rfl)
  have ok := inv.procs p
  rw [proc] at ok
  obtain ⟨signed, below⟩ := ok
  cases stage with
  | closed =>
    have free : owes P (s.procs p) = false := by rw [proc]; rfl
    have below : Below P s.released key := below
    simp only [advance, proc]
    refine move others rfl (fun _ => inv.fresh (settled others free)) ⟨signed, ?_⟩ inv.distinct
    split
    · exact below.advance lawful signed
    · exact below
  | opened done =>
    by_cases more : done < (P.writeSig sig).length
    · have free : owes P (s.procs p) = false := by simp [proc, owes, more]
      have below : Below P s.released key := by
        rw [← proc, if_neg (by simp [free])] at below
        exact below
      simp only [advance, proc, if_pos more]
      by_cases last : min (P.writeSig sig).length (done + chunk + 1) = (P.writeSig sig).length
      · simp only [last, if_true]
        refine move others rfl (fun paid => ?_) ⟨signed, ?_⟩ (inv.distinct.release lawful below signed)
        · simp [owes] at paid
        · rw [if_pos (by simp [owes])]
          exact below.release lawful signed
      · simp only [last, if_false]
        refine move others rfl (fun _ => inv.fresh (settled others free)) ⟨signed, ?_⟩ inv.distinct
        split
        · exact below.advance lawful signed
        · exact below
    · have below : Below P s.released key' := by
        rw [if_pos (by simp [owes, Nat.not_lt.mp more])] at below
        exact below
      simp only [advance, proc, if_neg more]
      exact move others rfl nofun ⟨⟨key, com, sig, signed⟩, below, nofun⟩ inv.distinct

/-- A process that writes its key. -/
theorem advance_keeping (lawful : Lawful P) (inv : Inv P s) {key' : Key} {stage : Writing}
    (proc : s.procs p = .keeping key' stage) (chunk : Nat) (coin : Coin) :
    Inv P (advance P s p chunk coin) := by
  have others := inv.others (p := p) (by rw [proc]; rfl)
  have ok := inv.procs p
  rw [proc] at ok
  obtain ⟨signed, below, front⟩ := ok
  have ⟨_, _, _, _, made⟩ := signed
  obtain ⟨file, written, -⟩ := lawful.writes made
  have here (front' : List Byte) (done : Nat) (start : front' = file.take done)
      (file' : List Byte) (same : P.writeKey key' = some file') : front' = file'.take done := by
    rw [start, Option.some.inj (written.symm.trans same)]
  cases stage with
  | closed =>
    simp only [advance, proc, State.attempt, written]
    refine move others rfl (kept lawful signed below (here [] 0 rfl)) ⟨signed, below, ?_⟩ inv.distinct
    rintro _ ⟨⟩
    exact here [] 0 rfl
  | opened done =>
    have start := front done rfl file written
    by_cases more : done < file.length
    · have forth : done ≤ min file.length (done + chunk + 1) := by omega
      have next := (congrArg (fun f => writeAt f done _) start).trans
        (writeAt_take forth (Nat.min_le_left file.length (done + chunk + 1)))
      simp only [advance, proc, State.attempt, written, if_pos more]
      refine move others rfl (kept lawful signed below (here _ _ next)) ⟨signed, below, ?_⟩
        inv.distinct
      rintro _ ⟨⟩
      exact here _ _ next
    · simp only [advance, proc, State.attempt, written, if_neg more]
      exact inv.leave (by simp [proc, owes, written, more])

/-- A process that runs on. -/
theorem advance_inv (lawful : Lawful P) (inv : Inv P s) (chunk : Nat) (coin : Coin)
    (orderly : Orderly P s (.run p chunk coin)) : Inv P (advance P s p chunk coin) := by
  have ok := inv.procs p
  cases proc : s.procs p with
  | idle =>
    have others := orderly proc
    have free : owes P (s.procs p) = false := by rw [proc]; rfl
    have fresh := inv.fresh (settled others free)
    simp only [advance, proc]
    cases read : P.readKey s.signerKey with
    | none => exact inv.leave free
    | some key => exact move others rfl (fun _ => fresh) (fresh key read) inv.distinct
  | loaded key =>
    have others := inv.others (p := p) (by rw [proc]; rfl)
    have free : owes P (s.procs p) = false := by rw [proc]; rfl
    rw [proc] at ok
    simp only [advance, proc]
    cases P.readCommitment s.commitment with
    | none => exact inv.leave free
    | some com => exact move others rfl (fun _ => inv.fresh (settled others free)) ok inv.distinct
  | ready key com =>
    have others := inv.others (p := p) (by rw [proc]; rfl)
    have free : owes P (s.procs p) = false := by rw [proc]; rfl
    rw [proc] at ok
    simp only [advance, proc]
    cases signed : P.sign key com coin with
    | none => exact inv.leave free
    | some result =>
      exact move others rfl (fun _ => inv.fresh (settled others free)) ⟨⟨coin, signed⟩, ok⟩
        inv.distinct
  | sending => exact inv.advance_sending lawful proc chunk coin
  | keeping => exact inv.advance_keeping lawful proc chunk coin
  | stopped =>
    simp only [advance, proc]
    exact inv

theorem failing_inv (lawful : Lawful P) (inv : Inv P s) (orderly : owes P (s.procs p) = false) :
    Inv P (failing P s p) := by
  unfold failing
  split
  · next key com sig key' done proc =>
    have others := inv.others (p := p) (by rw [proc]; rfl)
    have ok := inv.procs p
    rw [proc] at ok orderly
    obtain ⟨signed, below⟩ := ok
    rw [if_neg (by simp [orderly])] at below
    split
    · exact inv.leave (by rw [proc]; exact orderly)
    · exact move others rfl nofun ⟨⟨key, com, sig, signed⟩, below.advance lawful signed, nofun⟩
        inv.distinct
  · exact inv.leave orderly

theorem step_inv (lawful : Lawful P) (inv : Inv P s) {action : Action Coin}
    (orderly : Orderly P s action) : Inv P (step P s action) := by
  cases action with
  | commit file => exact ⟨inv.alone, inv.fresh, inv.procs, inv.distinct⟩
  | run p chunk coin => exact inv.advance_inv lawful chunk coin orderly
  | fail p => exact inv.failing_inv lawful orderly
  | halt p => exact inv.leave orderly

end Inv

/-- In an orderly run no two released signatures share a leaf. -/
theorem distinct_of_orderly (lawful : Lawful P) (actions : List (Action Coin))
    {s : State Key Com Sig} (inv : Inv P s) (orderly : OrderlyRun P s actions) :
    Distinct P (execute P s actions).released := by
  induction actions generalizing s with
  | nil => exact inv.distinct
  | cons action actions ih => exact ih (inv.step_inv lawful orderly.1) orderly.2

theorem leafSafe_of_orderly (lawful : Lawful P) (signerKey commitment xmssSig : List Byte)
    (actions : List (Action Coin))
    (orderly : OrderlyRun P (initial signerKey commitment xmssSig) actions) :
    LeafSafe P (execute P (initial signerKey commitment xmssSig) actions) :=
  (distinct_of_orderly lawful actions (initial_inv ..) orderly).leafSafe

end Invariant

section Alone

variable {P : SignProgram Key Com Sig Coin Ident} {s : State Key Com Sig}

theorem advance_other {p q : Nat} (other : q ≠ p) (chunk : Nat) (coin : Coin) :
    (advance P s p chunk coin).procs q = s.procs q := by
  have moved (proc : Proc Key Com Sig) : (s.goto p proc).procs q = s.procs q :=
    Function.update_of_ne other ..
  unfold advance State.attempt
  split
  · split
    · exact moved _
    · exact moved _
  · split
    · exact moved _
    · exact moved _
  · split
    · exact moved _
    · exact moved _
  · exact moved _
  · dsimp only
    split
    · exact moved _
    · exact moved _
  · split
    · exact moved _
    · exact moved _
  · split
    · dsimp only
      split
      · exact moved _
      · exact moved _
    · exact moved _
  · rfl

/-- A process that meets no other runs as it likes. -/
theorem orderly_alone {p : Nat} (alone : ∀ q, q ≠ p → (s.procs q).inside = false) (n chunk : Nat)
    (coin : Coin) : OrderlyRun P s (List.replicate n (.run p chunk coin)) := by
  induction n generalizing s with
  | zero => trivial
  | succ n ih =>
    refine ⟨fun _ => alone, ih fun q other => ?_⟩
    rw [step, advance_other other]
    exact alone q other

end Alone

section Crash

variable (P : SignProgram Key Com Sig Coin Ident)

/-- A process is killed when its signature is complete; after the next commitment comes another. -/
def crash (commitment : List Byte) (coin : Coin) (chunk : Nat) : List (Action Coin) :=
  List.replicate 5 (.run 0 chunk coin) ++ [.halt 0, .commit commitment] ++
    List.replicate 5 (.run 1 chunk coin)

variable {P} {s : State Key Com Sig} {key key' : Key} {com : Com} {sig : Sig} {coin : Coin}

/-- Five calls from the key to the signature. -/
theorem execute_sign {p chunk : Nat} (idle : s.procs p = .idle)
    (key_read : P.readKey s.signerKey = some key)
    (com_read : P.readCommitment s.commitment = some com)
    (signed : P.sign key com coin = some (sig, key')) (some : P.writeSig sig ≠ [])
    (room : (P.writeSig sig).length ≤ chunk) :
    ∃ s', execute P s (List.replicate 5 (.run p chunk coin)) = s' ∧ s'.signerKey = s.signerKey ∧
      s'.released = { key, com, sig } :: s.released ∧ ∀ q, q ≠ p → s'.procs q = s.procs q := by
  have whole : min (P.writeSig sig).length (0 + chunk + 1) = (P.writeSig sig).length :=
    Nat.min_eq_left (by omega)
  have start : 0 < (P.writeSig sig).length := List.length_pos_iff.mpr some
  simp only [execute, List.replicate, List.foldl, step, advance, idle, State.attempt, key_read,
    State.goto, Function.update_self, com_read, signed, start, if_true, whole, exists_eq_left',
    true_and]
  intro q other
  simp only [Function.update_of_ne other]

/-- The process that is killed left the key file as it was, so both use its leaf. -/
theorem crash_reuses {keyFile commitment commitment' xmssSig : List Byte} {com' : Com} {sig' : Sig}
    {key'' : Key} {chunk : Nat} {u : Ident × Nat} (key_read : P.readKey keyFile = some key)
    (com_read : P.readCommitment commitment = some com)
    (com_read' : P.readCommitment commitment' = some com')
    (signed : P.sign key com coin = some (sig, key'))
    (signed' : P.sign key com' coin = some (sig', key''))
    (some : P.writeSig sig ≠ [] ∧ P.writeSig sig' ≠ [])
    (room : (P.writeSig sig).length ≤ chunk ∧ (P.writeSig sig').length ≤ chunk)
    (used : u ∈ P.used key sig) (again : u ∈ P.used key sig') (different : com ≠ com') :
    ¬ LeafSafe P (execute P (initial keyFile commitment xmssSig) (crash commitment' coin chunk)) := by
  intro safe
  let before : State Key Com Sig := initial keyFile commitment xmssSig
  obtain ⟨sent, first, kept, released, others⟩ :=
    execute_sign (s := before) (p := 0) rfl key_read com_read signed some.1 room.1
  let between : State Key Com Sig := step P (sent.leave 0) (.commit commitment')
  have idle : between.procs 1 = .idle :=
    (State.leave_other sent Nat.one_ne_zero).trans (others 1 Nat.one_ne_zero)
  obtain ⟨after, second, -, released', -⟩ := execute_sign (s := between) (p := 1) idle
    ((congrArg P.readKey kept).trans key_read) com_read' signed' some.2 room.2
  have run : execute P before (crash commitment' coin chunk) = after := by
    simp only [execute] at first second
    simp only [execute, crash, List.foldl_append, List.foldl_cons, List.foldl_nil, first]
    exact second
  have older : { key, com, sig } ∈ between.released := by
    rw [show between.released = _ from released]
    exact List.mem_cons_self
  rw [LeafSafe, run, released'] at safe
  exact different (safe _ (List.mem_cons_of_mem _ older) _ List.mem_cons_self u used again)

end Crash

end SignCommand

end BlindSig
