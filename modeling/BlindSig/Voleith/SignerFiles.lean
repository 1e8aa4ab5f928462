import BlindSig.Voleith.Protocol
import Mathlib.Logic.Function.Basic

/-! `sign` processes on one directory. A process takes the lock, reads the commitment and the
key, reserves a leaf, replaces the key file, signs and replaces `xmss_sig.bin`; between any two
system calls another process may run, and any process may fail or be killed. -/
namespace BlindSig.Voleith

open Kkw

/-- Where `write` stands: `mkstemp`, the write loop, `fsync`, `close`, `rename`, and `open` and
`fsync` of the directory. -/
inductive Stage where
  | start
  | writing (done : Nat)
  | synced
  | closed
  | replaced
  | opened
  deriving DecidableEq

/-- The next system call succeeds; a `write` takes at least one byte. `none`: it returns. -/
def Stage.next (size chunk : Nat) : Stage → Option Stage
  | .start => some (.writing 0)
  | .writing done => if done < size then some (.writing (min size (done + chunk + 1)))
    else some .synced
  | .synced => some .closed
  | .closed => some .replaced
  | .replaced => some .opened
  | .opened => none

/-- Has the file been renamed into place? -/
def Stage.inPlace : Stage → Bool
  | .replaced | .opened => true
  | _ => false

section Stages

variable {size chunk : Nat} {stage stage' : Stage}

theorem Stage.inPlace_of_next_none (last : stage.next size chunk = none) :
    stage.inPlace = true := by
  cases stage with
  | opened => rfl
  | writing done =>
    simp only [Stage.next] at last
    split at last <;> cases last
  | _ => cases last

theorem Stage.not_inPlace_of_next_replaced (rename : stage.next size chunk = some .replaced) :
    stage.inPlace = false := by
  cases stage with
  | replaced => cases rename
  | opened => cases rename
  | _ => rfl

/-- Every step but the rename leaves the target as it is. -/
theorem Stage.inPlace_next (go : stage.next size chunk = some stage')
    (keep : stage' ≠ .replaced) : stage'.inPlace = stage.inPlace := by
  cases stage with
  | start => cases go; rfl
  | writing done =>
    simp only [Stage.next] at go
    split at go <;> cases go <;> rfl
  | synced => cases go; rfl
  | closed => cases go; exact absurd rfl keep
  | replaced => cases go; rfl
  | opened => cases go

end Stages

inductive Proc where
  | idle
  | locked
  | committed (com : Commitment)
  | loaded (com : Commitment) (signer : Signer)
  | persisting (com : Commitment) (signer : Signer) (leaf : Word) (stage : Stage)
  | persisted (com : Commitment) (signer : Signer) (leaf : Word)
  | releasing (sig : XmssSig) (stage : Stage)
  | stopped

/-- `released` records every response that has stood in `xmss_sig.bin`. -/
structure State where
  signerKey : List Byte
  commitment : List Byte
  xmssSig : List Byte
  lock : Option Nat
  procs : Nat → Proc
  released : List XmssSig

namespace State

def goto (s : State) (p : Nat) (proc : Proc) : State :=
  { s with procs := Function.update s.procs p proc }

/-- The process ends: it returns, an exception unwinds it or it is killed. The lock goes with
its descriptor. -/
def leave (s : State) (p : Nat) : State :=
  { s.goto p .stopped with lock := if s.lock = some p then none else s.lock }

/-- A step that may throw. -/
def attempt {α : Type} (s : State) (p : Nat) (result : Checked String α) (next : α → State) : State :=
  match result with
  | .ok x => next x
  | .error _ => s.leave p

end State

/-- `read(path, limit)`. -/
def readFile (file : List Byte) (limit : Nat) : Checked String (List Byte) := do
  check (file.length ≤ limit) "invalid file length"
  return file

variable (S : Shake256)

/-- Process `p` goes on with its next step; a process waiting for the lock stays where it is. -/
def advance (s : State) (p chunk : Nat) (nonces : List Nonce) : State :=
  match s.procs p with
  | .idle => if s.lock = none then { s.goto p .locked with lock := some p } else s
  | .locked => s.attempt p (readFile s.commitment 264 >>= decodeCommitment) fun com =>
      s.goto p (.committed com)
  | .committed com => s.attempt p (readFile s.signerKey 65 >>= decodeSecret >>= Signer.new S)
      fun signer => s.goto p (.loaded com signer)
  | .loaded com signer => s.attempt p (Signer.reserve signer.key) fun (leaf, key) =>
      s.goto p (.persisting com { signer with key } leaf .start)
  | .persisting com signer leaf stage => s.attempt p (encodeSecret signer.key) fun file =>
      match stage.next file.length chunk with
      | none => s.goto p (.persisted com signer leaf)
      | some .replaced =>
        { s.goto p (.persisting com signer leaf .replaced) with signerKey := file }
      | some stage => s.goto p (.persisting com signer leaf stage)
  | .persisted com signer leaf => s.attempt p (Signer.respond S signer.tree leaf com nonces)
      fun (sig, _) => s.goto p (.releasing sig .start)
  | .releasing sig stage =>
      match stage.next (encodeResponse sig).length chunk with
      | none => s.leave p
      | some .replaced =>
        { s.goto p (.releasing sig .replaced) with
          xmssSig := encodeResponse sig, released := sig :: s.released }
      | some stage => s.goto p (.releasing sig stage)
  | .stopped => s

/-- What may happen next: a user leaves another commitment, a process runs on, or one fails or
is killed. -/
inductive Action where
  | commit (file : List Byte)
  | run (p chunk : Nat) (nonces : List Nonce)
  | halt (p : Nat)

def step (s : State) : Action → State
  | .commit file => { s with commitment := file }
  | .run p chunk nonces => advance S s p chunk nonces
  | .halt p => s.leave p

def execute (s : State) (actions : List Action) : State := actions.foldl (step S) s

/-- No process has started yet on a directory with a valid key. -/
def initial (key : SecretKey) (commitment xmssSig : List Byte) : State where
  signerKey := framing 'K' ++ keyFields key
  commitment
  xmssSig
  lock := none
  procs := fun _ => .idle
  released := []

section Invariant

/-- What a process knows, given the key in the file and the released responses. -/
def ProcOk (released : List XmssSig) (key : SecretKey) : Proc → Prop
  | .loaded _ signer => signer.key = key
  | .persisting _ signer leaf stage =>
    validKey signer.key ∧ signer.key.height = key.height ∧
      leaf.toNat + 1 = signer.key.nextLeaf.toNat ∧
      (∀ sig ∈ released, sig.leafIndex.toNat < leaf.toNat) ∧
      if stage.inPlace then signer.key = key else key.nextLeaf.toNat = leaf.toNat
  | .persisted _ _ leaf =>
    leaf.toNat + 1 = key.nextLeaf.toNat ∧ ∀ sig ∈ released, sig.leafIndex.toNat < leaf.toNat
  | .releasing sig stage => stage.inPlace = false →
    sig.leafIndex.toNat < key.nextLeaf.toNat ∧
      ∀ old ∈ released, old.leafIndex.toNat < sig.leafIndex.toNat
  | _ => True

/-- Does the process hold the lock? -/
def Proc.holds : Proc → Bool
  | .idle | .stopped => false
  | _ => true

/-- The invariant: the file holds `key`, every released leaf lies below it and is unlike the
others, and only the holder of the lock is under way. -/
structure Inv (s : State) (key : SecretKey) : Prop where
  file : s.signerKey = framing 'K' ++ keyFields key
  valid : validKey key
  below : ∀ sig ∈ s.released, sig.leafIndex.toNat < key.nextLeaf.toNat
  distinct : (s.released.map XmssSig.leafIndex).Nodup
  holder : ∀ p, (s.procs p).holds = true → s.lock = some p
  procs : ∀ p, ProcOk s.released key (s.procs p)

theorem procOk_of_not_holds {released : List XmssSig} {key : SecretKey} {proc : Proc}
    (out : proc.holds = false) : ProcOk released key proc := by
  cases proc with
  | idle => trivial
  | stopped => trivial
  | _ => cases out

theorem initial_inv {key : SecretKey} (valid : validKey key) (commitment xmssSig : List Byte) :
    Inv (initial key commitment xmssSig) key where
  file := rfl
  valid := valid
  below _ member := by cases member
  distinct := List.nodup_nil
  holder _ holds := by cases holds
  procs _ := trivial

namespace Inv

variable {s : State} {key : SecretKey} {p : Nat}

/-- Another process does not hold the lock. -/
theorem other (inv : Inv s key) (lock : s.lock = some p) {q : Nat} (different : q ≠ p) :
    (s.procs q).holds = false := by
  cases holds : (s.procs q).holds with
  | false => rfl
  | true =>
    have := inv.holder q holds
    rw [lock, Option.some.injEq] at this
    exact absurd this.symm different

/-- The holder moves on and may have changed the key file and the released responses. -/
theorem move (inv : Inv s key) (lock : s.lock = some p) {s' : State} {key' : SecretKey}
    {proc : Proc} (procs : s'.procs = Function.update s.procs p proc) (same : s'.lock = s.lock)
    (file : s'.signerKey = framing 'K' ++ keyFields key') (valid : validKey key')
    (below : ∀ sig ∈ s'.released, sig.leafIndex.toNat < key'.nextLeaf.toNat)
    (distinct : (s'.released.map XmssSig.leafIndex).Nodup)
    (ok : ProcOk s'.released key' proc) : Inv s' key' where
  file := file
  valid := valid
  below := below
  distinct := distinct
  holder q holds := by
    rcases eq_or_ne q p with rfl | different
    · rw [same, lock]
    · rw [procs, Function.update_of_ne different, inv.other lock different] at holds
      cases holds
  procs q := by
    rcases eq_or_ne q p with rfl | different
    · rw [procs, Function.update_self]
      exact ok
    · rw [procs, Function.update_of_ne different]
      exact procOk_of_not_holds (inv.other lock different)

theorem goto (inv : Inv s key) (lock : s.lock = some p) (proc : Proc)
    (ok : ProcOk s.released key proc) : Inv (s.goto p proc) key :=
  inv.move lock rfl rfl inv.file inv.valid inv.below inv.distinct ok

theorem leave (inv : Inv s key) (p : Nat) : Inv (s.leave p) key where
  file := inv.file
  valid := inv.valid
  below := inv.below
  distinct := inv.distinct
  holder q holds := by
    rcases eq_or_ne q p with rfl | different
    · simp [State.leave, State.goto, Proc.holds] at holds
    · simp only [State.leave, State.goto, Function.update_of_ne different] at holds
      have lock := inv.holder q holds
      have other : s.lock ≠ some p := fun same => different (Option.some.inj (lock.symm.trans same))
      rw [State.leave, if_neg other, lock]
  procs q := by
    rcases eq_or_ne q p with rfl | different
    · simp [State.leave, State.goto, ProcOk]
    · simp only [State.leave, State.goto, Function.update_of_ne different]
      exact inv.procs q

end Inv

theorem State.attempt_cases {α : Type} {s : State} {p : Nat} {result : Checked String α}
    {next : α → State} {P : State → Prop} (gone : P (s.leave p))
    (ok : ∀ x, result = .ok x → P (next x)) : P (s.attempt p result next) := by
  cases result with
  | ok x => exact ok x rfl
  | error e => exact gone

/-- The key file of the same signer at a later time. -/
structure Later (key key' : SecretKey) : Prop where
  height : key'.height = key.height
  nextLeaf : key.nextLeaf.toNat ≤ key'.nextLeaf.toNat

theorem Later.refl (key : SecretKey) : Later key key := ⟨rfl, le_rfl⟩

theorem Later.trans {key key' key'' : SecretKey} (first : Later key key')
    (second : Later key' key'') : Later key key'' :=
  ⟨second.height.trans first.height, first.nextLeaf.trans second.nextLeaf⟩

def Kept (key : SecretKey) (s : State) : Prop := ∃ key', Inv s key' ∧ Later key key'

namespace Inv

variable {s : State} {key : SecretKey} {p : Nat}

theorem kept (inv : Inv s key) : Kept key s := ⟨key, inv, .refl key⟩

/-- The process at work holds the lock. -/
theorem locked (inv : Inv s key) {proc : Proc} (here : s.procs p = proc)
    (holds : proc.holds = true) : s.lock = some p :=
  inv.holder p (by rw [here, holds])

theorem ok (inv : Inv s key) {proc : Proc} (here : s.procs p = proc) :
    ProcOk s.released key proc := by
  rw [← here]
  exact inv.procs p

/-- A process that finds the lock free takes it: nobody else is under way. -/
theorem acquire (inv : Inv s key) (free : s.lock = none) :
    Inv { s.goto p .locked with lock := some p } key where
  file := inv.file
  valid := inv.valid
  below := inv.below
  distinct := inv.distinct
  holder q holds := by
    rcases eq_or_ne q p with rfl | different
    · rfl
    · simp only [State.goto, Function.update_of_ne different] at holds
      have taken := inv.holder q holds
      rw [free] at taken
      cases taken
  procs q := by
    rcases eq_or_ne q p with rfl | different
    · simp [State.goto, ProcOk]
    · simp only [State.goto, Function.update_of_ne different]
      exact inv.procs q

/-- A step of writing the key: only the rename changes the key file. -/
theorem persist_step (inv : Inv s key) {com : Commitment} {signer : Signer} {leaf : Word}
    {stage : Stage} (here : s.procs p = .persisting com signer leaf stage) (chunk : Nat)
    (nonces : List Nonce) : Kept key (advance S s p chunk nonces) := by
  have lock := inv.locked here rfl
  obtain ⟨valid, height, next, above, file⟩ := inv.ok here
  simp only [Voleith.advance, here]
  apply State.attempt_cases (inv.leave p).kept
  intro bytes written
  obtain ⟨_, rfl⟩ := encodeSecret_ok written
  split
  · next last =>
    rw [Stage.inPlace_of_next_none last, if_pos rfl] at file
    rw [file] at next
    exact (inv.goto lock (.persisted com signer leaf) ⟨next, above⟩).kept
  · next rename =>
    rw [Stage.not_inPlace_of_next_replaced rename] at file
    have same : key.nextLeaf.toNat = leaf.toNat := file
    have written : Inv { s.goto p (.persisting com signer leaf .replaced) with
        signerKey := framing 'K' ++ keyFields signer.key } signer.key :=
      inv.move lock rfl rfl rfl valid (fun sig released => by
        have := above sig released
        omega) inv.distinct ⟨valid, rfl, next, above, rfl⟩
    exact ⟨signer.key, written, ⟨height, by omega⟩⟩
  · next stage' other go =>
    have keep := Stage.inPlace_next go other
    rw [← keep] at file
    exact (inv.goto lock (.persisting com signer leaf stage')
      ⟨valid, height, next, above, file⟩).kept

theorem release_step (inv : Inv s key) {sig : XmssSig} {stage : Stage}
    (here : s.procs p = .releasing sig stage) (chunk : Nat) (nonces : List Nonce) :
    Kept key (advance S s p chunk nonces) := by
  have lock := inv.locked here rfl
  have known := inv.ok here
  simp only [Voleith.advance, here]
  split
  · exact (inv.leave p).kept
  · next rename =>
    obtain ⟨below, above⟩ := known (Stage.not_inPlace_of_next_replaced rename)
    have released : Inv { s.goto p (.releasing sig .replaced) with
        xmssSig := encodeResponse sig, released := sig :: s.released } key :=
      inv.move lock rfl rfl inv.file inv.valid (fun old member => by
        rcases List.mem_cons.mp member with rfl | member
        · exact below
        · exact inv.below old member) (by
        rw [List.map_cons, List.nodup_cons]
        constructor
        · intro again
          obtain ⟨old, member, same⟩ := List.mem_map.mp again
          have := above old member
          rw [same] at this
          exact Nat.lt_irrefl _ this
        · exact inv.distinct) (fun early => by cases early)
    exact released.kept
  · next stage' other go =>
    have keep := Stage.inPlace_next go other
    exact (inv.goto lock (.releasing sig stage') fun early => known (keep ▸ early)).kept

theorem advance (inv : Inv s key) (p chunk : Nat) (nonces : List Nonce) :
    Kept key (advance S s p chunk nonces) := by
  cases here : s.procs p with
  | idle =>
    simp only [Voleith.advance, here]
    split
    · next free => exact (inv.acquire free).kept
    · exact inv.kept
  | locked =>
    simp only [Voleith.advance, here]
    apply State.attempt_cases (inv.leave p).kept
    intro com read
    exact (inv.goto (inv.locked here rfl) (.committed com) trivial).kept
  | committed com =>
    simp only [Voleith.advance, here]
    apply State.attempt_cases (inv.leave p).kept
    intro signer made
    obtain ⟨found, read, made⟩ := bind_eq_ok.mp made
    obtain ⟨file, opened, decoded⟩ := bind_eq_ok.mp read
    obtain ⟨_, _, content⟩ := bind_eq_ok.mp opened
    rw [← Except.ok.inj content, inv.file, decodeSecret_frame inv.valid] at decoded
    have same : signer.key = key := by rw [Signer.new_key S made, Except.ok.inj decoded]
    exact (inv.goto (inv.locked here rfl) (.loaded com signer) same).kept
  | loaded com signer =>
    simp only [Voleith.advance, here]
    apply State.attempt_cases (inv.leave p).kept
    rintro ⟨leaf, key'⟩ reserved
    have same : signer.key = key := inv.ok here
    rw [same] at reserved
    obtain ⟨valid, height, first, next⟩ := Signer.reserve_ok inv.valid reserved
    exact (inv.goto (inv.locked here rfl) (.persisting com { signer with key := key' } leaf .start)
      ⟨valid, height, by simp only [next, first], fun sig released => by
        rw [first]
        exact inv.below sig released, first.symm⟩).kept
  | persisting com signer leaf stage => exact inv.persist_step S here chunk nonces
  | persisted com signer leaf =>
    simp only [Voleith.advance, here]
    apply State.attempt_cases (inv.leave p).kept
    rintro ⟨sig, tree⟩ signed
    obtain ⟨next, above⟩ := inv.ok here
    have same := Signer.respond_leafIndex S signed
    exact (inv.goto (inv.locked here rfl) (.releasing sig .start) fun _ => by
      rw [same]
      exact ⟨by omega, above⟩).kept
  | releasing sig stage => exact inv.release_step S here chunk nonces
  | stopped =>
    simp only [Voleith.advance, here]
    exact inv.kept

end Inv

theorem step_inv {s : State} {key : SecretKey} (inv : Inv s key) (action : Action) :
    Kept key (step S s action) := by
  cases action with
  | commit file =>
    exact ⟨key, ⟨inv.file, inv.valid, inv.below, inv.distinct, inv.holder, inv.procs⟩, .refl key⟩
  | run p chunk nonces => exact inv.advance S p chunk nonces
  | halt p => exact (inv.leave p).kept

theorem execute_inv (actions : List Action) {s : State} {key : SecretKey} (inv : Inv s key) :
    Kept key (execute S s actions) := by
  induction actions generalizing s key with
  | nil => exact inv.kept
  | cons action actions ih =>
    obtain ⟨key', inv', later⟩ := step_inv S inv action
    obtain ⟨key'', inv'', later'⟩ := ih inv'
    exact ⟨key'', inv'', later.trans later'⟩

theorem execute_append (s : State) (actions later : List Action) :
    execute S s (actions ++ later) = execute S (execute S s actions) later :=
  List.foldl_append

/-- The key file and the released responses of a state of the directory: the file decodes to
`stored`, a key of the same height, and every released leaf is below its `next_leaf`. -/
structure Reserved (s : State) (key stored : SecretKey) : Prop where
  decoded : decodeSecret s.signerKey = .ok stored
  height : stored.height = key.height
  bound : stored.nextLeaf.toNat ≤ 2 ^ key.height.toNat
  distinct : (s.released.map XmssSig.leafIndex).Nodup
  below : ∀ sig ∈ s.released, sig.leafIndex.toNat < stored.nextLeaf.toNat

theorem Inv.reserved {s : State} {key stored : SecretKey} (inv : Inv s stored)
    (later : Later key stored) : Reserved s key stored where
  decoded := by rw [inv.file, decodeSecret_frame inv.valid]
  height := later.height
  bound := by
    have bound := inv.valid.2.2
    rwa [SecretKey.capacity, Nat.one_shiftLeft, later.height] at bound
  distinct := inv.distinct
  below := inv.below

end Invariant

/-- In every run of processes on one directory the released leaves are pairwise distinct, the
key file always holds a key whose `next_leaf` lies above all of them, stays within the capacity
and never decreases; and a signer that reserved a leaf never answers with it again, whatever
its callback did. -/
theorem leaf_reservation (key : {key : SecretKey // validKey key}) (commitment xmssSig : List Byte)
    (actions later : List Action) (signer : {signer : Signer // validKey signer.key})
    (com : Commitment) (persist : SecretKey → Bool) (nonces : List Nonce)
    (requests : List Signer.Request) :
    (∃ stored stored', Reserved (execute S (initial key commitment xmssSig) actions) key stored ∧
      Reserved (execute S (initial key commitment xmssSig) (actions ++ later)) key stored' ∧
      stored.nextLeaf.toNat ≤ stored'.nextLeaf.toNat) ∧
    match Signer.reserve signer.val.key with
    | .error e => signer.val.sign S com persist nonces = (.error e, signer.val)
    | .ok (leaf, next) =>
      (persist next = false →
        (signer.val.sign S com persist nonces).1 = .error (.check "persist")) ∧
      (signer.val.sign S com persist nonces).2.key = next ∧
      next.nextLeaf.toNat = leaf.toNat + 1 ∧
      ∀ sig ∈ (signer.val.sign S com persist nonces).2.signs S requests,
        leaf.toNat < sig.leafIndex.toNat := by
  constructor
  · obtain ⟨stored, inv, grown⟩ :=
      execute_inv S actions (initial_inv key.property commitment xmssSig)
    obtain ⟨stored', inv', grown'⟩ := execute_inv S later inv
    rw [execute_append]
    exact ⟨stored, stored', inv.reserved grown, inv'.reserved (grown.trans grown'),
      grown'.nextLeaf⟩
  · cases reserved : Signer.reserve signer.val.key with
    | error e => simp only [Signer.sign, reserved]
    | ok pair =>
      obtain ⟨leaf, next⟩ := pair
      obtain ⟨_, _, first, follows⟩ := Signer.reserve_ok signer.property reserved
      have consumed := Signer.sign_consumed S reserved com persist nonces
      have valid := (Signer.sign_valid S signer.property com persist nonces).1
      constructor
      · exact fun thrown => Signer.sign_unpersisted S reserved thrown com nonces
      constructor
      · exact consumed
      constructor
      · rw [follows, first]
      · intro sig member
        have above := Signer.signs_above S requests valid sig member
        rw [consumed] at above
        omega

section Sample

/-- A signer under a key with room. -/
theorem Signer.new_ok {key : SecretKey} (valid : validKey key) :
    ∃ tree, Signer.new S key = .ok { key, tree } ∧ (xmssHashes S).Valid tree ∧
      tree.pkSeed = key.publicSeed ∧ tree.height = key.height.toNat := by
  have inside : 1 ≤ key.height.toNat ∧ key.height.toNat ≤ xmssH := ⟨valid.1, valid.2.1⟩
  have split : 1 ≤ min key.height.toNat xmssSubtreeH ∧
      min key.height.toNat xmssSubtreeH ≤ key.height.toNat :=
    ⟨Nat.le_min.mpr ⟨inside.1, by decide⟩, Nat.min_le_left _ _⟩
  obtain ⟨tree, built, sound, -, pkSeed, height⟩ :=
    (xmssHashes S).keypairNewSplit_valid key.seed key.publicSeed inside split
  refine ⟨tree, ?_, sound, pkSeed, height⟩
  rw [Signer.new, validateKey, check_true valid]
  simp only [bind, Except.bind, built]
  rfl

/-- The first nine steps of a process leave the next leaf in the key file. -/
theorem execute_reserve {s : State} {p : Nat} {key : SecretKey} (next : SecretKey) (leaf : Word)
    {com : Commitment} {signer : Signer} (nonces : List Nonce) (idle : s.procs p = .idle) (free : s.lock = none)
    (read : (readFile s.commitment 264 >>= decodeCommitment) = .ok com)
    (file : s.signerKey = framing 'K' ++ keyFields key) (valid : validKey key)
    (made : Signer.new S key = .ok signer) (reserved : Signer.reserve key = .ok (leaf, next)) :
    execute S s (List.replicate 9 (.run p 64 nonces)) =
      { s with
        signerKey := framing 'K' ++ keyFields next
        lock := some p
        procs := Function.update s.procs p
          (.persisting com { signer with key := next } leaf .replaced) } := by
  have opened : (readFile s.signerKey 65 >>= decodeSecret >>= Signer.new S) = .ok signer := by
    have size : (framing 'K' ++ keyFields key).length ≤ 65 := by
      rw [List.length_append, length_keyFields]
      exact Nat.le_refl 65
    rw [file, readFile, check_true size]
    simp only [bind, Except.bind, pure, Except.pure, decodeSecret_frame valid, made]
  have same : signer.key = key := Signer.new_key S made
  have writes : encodeSecret next = .ok (framing 'K' ++ keyFields next) := by
    rw [encodeSecret, validateKey, check_true (Signer.reserve_ok valid reserved).1]
    rfl
  have size : (framing 'K' ++ keyFields next).length = 65 := by
    rw [List.length_append, length_keyFields]
    rfl
  have some : 0 < 65 := by decide
  have whole : min 65 (0 + 64 + 1) = 65 := rfl
  simp only [execute, List.replicate, List.foldl, step, advance, idle, free, read, opened, same,
    reserved, writes, size, Stage.next, State.attempt, State.goto, Function.update_self,
    Function.update_idem, if_true, some, whole, Nat.lt_irrefl, if_false]

theorem length_encodeResponse (sig : XmssSig) : (encodeResponse sig).length = 1220 := by
  have rows {n : Nat} (v : Vector Node n) : (v.toList.flatMap Vector.toList).length = n * 16 := by
    simp [List.length_flatMap]
  simp only [encodeResponse, writeSig, List.length_append, Vector.length_toList, rows]
  rfl

/-- The next eight put its response into `xmss_sig.bin`. -/
theorem execute_respond {s : State} {p : Nat} {leaf : Word} {com : Commitment} {signer : Signer}
    {nonces : List Nonce} {sig : XmssSig} {tree : XmssKeypair}
    (here : s.procs p = .persisting com signer leaf .replaced) (valid : validKey signer.key)
    (signed : Signer.respond S signer.tree leaf com nonces = .ok (sig, tree)) :
    (execute S s (List.replicate 8 (.run p 1219 nonces))).released = sig :: s.released ∧
      (execute S s (List.replicate 8 (.run p 1219 nonces))).signerKey = s.signerKey := by
  have writes : encodeSecret signer.key = .ok (framing 'K' ++ keyFields signer.key) := by
    rw [encodeSecret, validateKey, check_true valid]
    rfl
  have some : 0 < 1220 := by decide
  have whole : min 1220 (0 + 1219 + 1) = 1220 := rfl
  constructor <;> simp only [execute, List.replicate, List.foldl, step, advance, here, writes, signed,
    length_encodeResponse, Stage.next, State.attempt, State.goto, Function.update_self,
    Function.update_idem, if_true, some, whole, Nat.lt_irrefl, if_false]

/-- Outputs that all start with the digest whose digits add up to 195. -/
def sampleShake : Shake256 where
  squeeze _ n := Vector.ofFn fun i : Fin n => sampleDigest[i.val]?.getD 0

def sampleSecret (nextLeaf : BitVec 64) : SecretKey where
  seed := .replicate _ 1
  publicSeed := .replicate _ 2
  height := 1
  nextLeaf

theorem sampleSecret_valid {n : BitVec 64} (inside : n.toNat ≤ 2) : validKey (sampleSecret n) :=
  ⟨Nat.le_refl 1, (show 1 ≤ 32 by decide), inside⟩

/-- A process is killed after it reserved leaf 0, and the next one answers with leaf 1. A signer whose
callback throws has consumed leaf 0 as well. -/
theorem leaf_reservation_killed :
    let file := framing 'C' ++ (Vector.replicate 256 (3 : Byte)).toList
    let killed := List.replicate 9 (.run 0 64 []) ++ [.halt 0]
    let answered := List.replicate 9 (.run 1 64 [.replicate _ 0]) ++
      List.replicate 8 (.run 1 1219 [.replicate _ 0])
    (∃ sig, sig.leafIndex = 1 ∧
      Reserved (execute sampleShake (initial (sampleSecret 0) file []) killed) (sampleSecret 0)
        (sampleSecret 1) ∧
      Reserved (execute sampleShake (initial (sampleSecret 0) file []) (killed ++ answered))
        (sampleSecret 0) (sampleSecret 2) ∧
      (execute sampleShake (initial (sampleSecret 0) file []) killed).released = [] ∧
      (execute sampleShake (initial (sampleSecret 0) file []) (killed ++ answered)).released = [sig]) ∧
    ∃ tree, Signer.new sampleShake (sampleSecret 0) = .ok { key := sampleSecret 0, tree } ∧
      let after := Signer.sign sampleShake { key := sampleSecret 0, tree } (.replicate _ 3)
        (fun _ => false) []
      after.1 = .error (.check "persist") ∧ after.2.key = sampleSecret 1 ∧
        ∀ sig ∈ after.2.signs sampleShake [⟨.replicate _ 3, fun _ => true, [.replicate _ 0]⟩],
          0 < sig.leafIndex.toNat := by
  intro file killed answered
  have valid₀ := sampleSecret_valid (n := 0) (by decide)
  have valid₁ := sampleSecret_valid (n := 1) (by decide)
  have valid₂ := sampleSecret_valid (n := 2) (by decide)
  obtain ⟨tree₀, made₀, -⟩ := Signer.new_ok sampleShake valid₀
  obtain ⟨tree₁, made₁, sound, pkSeed, height⟩ := Signer.new_ok sampleShake valid₁
  have read : (readFile file 264 >>= decodeCommitment) = .ok (Vector.replicate 256 3) := by
    decide +kernel
  have found : ∃ found, (xmssHashes sampleShake).grindNonce tree₁.pkSeed 1
      (hmDigest sampleShake (.replicate 256 3)).toList [.replicate _ 0] = some found := by
    rw [pkSeed]
    exact Option.isSome_iff_exists.mp (by decide +kernel)
  obtain ⟨⟨sig, tree⟩, response⟩ := ((xmssHashes sampleShake).keypairSign_isOk sound).mpr
    ⟨by rw [height]; decide, found⟩
  have responds : Signer.respond sampleShake tree₁ 1 (.replicate _ 3) [.replicate _ 0] =
      .ok (sig, tree) := by
    simp only [Signer.respond, response]
  have dead := execute_reserve sampleShake (s := initial (sampleSecret 0) file []) (p := 0)
    (sampleSecret 1) 0 [] rfl rfl read rfl valid₀ made₀ rfl
  obtain ⟨s₁, at₁⟩ : ∃ s₁, s₁ = execute sampleShake (initial (sampleSecret 0) file []) killed := ⟨_, rfl⟩
  obtain ⟨idle, free, commitment, key, silent⟩ : s₁.procs 1 = .idle ∧ s₁.lock = none ∧
      s₁.commitment = file ∧ s₁.signerKey = framing 'K' ++ keyFields (sampleSecret 1) ∧
      s₁.released = [] := by
    rw [at₁, execute_append, dead]
    exact ⟨rfl, rfl, rfl, rfl, rfl⟩
  rw [← commitment] at read
  have next := execute_reserve sampleShake (sampleSecret 2) 1 [.replicate _ 0] idle free read key valid₁ made₁
    rfl
  obtain ⟨s₂, at₂⟩ : ∃ s₂, s₂ = execute sampleShake s₁
      (List.replicate 9 (.run 1 64 [.replicate _ 0])) := ⟨_, rfl⟩
  rw [← at₂] at next
  have here : s₂.procs 1 = .persisting (.replicate 256 3) { key := sampleSecret 2, tree := tree₁ } 1
      .replaced := by
    simp only [next, Function.update_self]
  obtain ⟨released, file'⟩ := execute_respond sampleShake here valid₂ responds
  have whole : execute sampleShake (initial (sampleSecret 0) file []) (killed ++ answered) =
      execute sampleShake s₂ (List.replicate 8 (.run 1 1219 [.replicate _ 0])) := by
    rw [execute_append, ← at₁, execute_append, ← at₂]
  obtain ⟨⟨stored, stored', safe, safe', -⟩, thrown, consumed, -, above⟩ :=
    leaf_reservation sampleShake ⟨sampleSecret 0, valid₀⟩ file [] killed answered
      ⟨{ key := sampleSecret 0, tree := tree₀ }, valid₀⟩ (.replicate _ 3) (fun _ => false) []
      [⟨.replicate _ 3, fun _ => true, [.replicate _ 0]⟩]
  have held : stored = sampleSecret 1 := by
    have decoded := safe.decoded
    rw [← at₁, key, decodeSecret_frame valid₁] at decoded
    exact (Except.ok.inj decoded).symm
  have held' : stored' = sampleSecret 2 := by
    have decoded := safe'.decoded
    rw [whole, file', next, decodeSecret_frame valid₂] at decoded
    exact (Except.ok.inj decoded).symm
  rw [held] at safe
  rw [held'] at safe'
  refine ⟨⟨sig, Signer.respond_leafIndex sampleShake responds, safe, safe', at₁ ▸ silent, ?_⟩, tree₀,
    made₀, thrown rfl, consumed, above⟩
  rw [whole, released, next]
  exact congrArg (sig :: ·) silent

end Sample

end BlindSig.Voleith
