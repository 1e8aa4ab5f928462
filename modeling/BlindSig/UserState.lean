import BlindSig.Binius.Serialize
import BlindSig.Kkw.Gf128
import BlindSig.Longfellow.Protocol

/-! The user state between `commit` and `prove`: how kkw writes it, and what each of the three
file-based programs reads back. All of them cast the message length to 32 bits. -/
namespace BlindSig

namespace Kkw

structure BlindUserState where
  msg : List Byte
  com : Vector Byte hmComBytes
  r : Vector Byte hmRBytes
  deriving DecidableEq

def putU32le (v : Word) : List Byte := (le32Bytes v).toList

def getU32le (p : List Byte) : Option (Word × List Byte) :=
  (readArray 4 p).map fun (b, p) => (le32Word b, p)

def blindUserStateBytes (st : BlindUserState) : Nat := 4 + st.msg.length + hmComBytes + hmRBytes

def blindWriteUserState (st : BlindUserState) : List Byte :=
  putU32le (BitVec.ofNat 32 st.msg.length) ++ st.msg ++ st.com.toList ++ st.r.toList

/-- `msg_len` is a `size_t` here; the refusals return 0. -/
def blindReadUserState (buf : List Byte) : Checked Unit BlindUserState := do
  check (4 + hmComBytes + hmRBytes ≤ buf.length) ()
  let (msgLen, p) ← fetch (getU32le buf)
  check (buf.length = 4 + msgLen.toNat + hmComBytes + hmRBytes) ()
  let (msg, p) ← fetch (readSpan msgLen.toNat p)
  let (com, p) ← fetch (readArray hmComBytes p)
  let (r, _) ← fetch (readArray hmRBytes p)
  return { msg, com, r }

theorem length_blindWriteUserState (st : BlindUserState) :
    (blindWriteUserState st).length = blindUserStateBytes st := by
  simp [blindWriteUserState, blindUserStateBytes, putU32le, Nat.add_assoc]

/-- The reader on a written state: only the size check can refuse it. -/
theorem blindReadUserState_write (st : BlindUserState) :
    blindReadUserState (blindWriteUserState st) =
      if st.msg.length < 2 ^ 32 then .ok st else .error (.check ()) := by
  have size := length_blindWriteUserState st
  simp only [blindUserStateBytes] at size
  have field : getU32le (blindWriteUserState st) =
      some (BitVec.ofNat 32 st.msg.length, st.msg ++ (st.com.toList ++ st.r.toList)) := by
    simp only [blindWriteUserState, List.append_assoc]
    exact Codec.u32.read_write _ _
  have com : readArray hmComBytes (st.com.toList ++ st.r.toList) = some (st.com, st.r.toList) :=
    readArray_eq_some.mpr rfl
  have r : readArray hmRBytes st.r.toList = some (st.r, []) :=
    readArray_eq_some.mpr (List.append_nil _).symm
  rw [blindReadUserState, check_true (by omega), field]
  simp only [fetch_some, bind, Except.bind, BitVec.toNat_ofNat, size]
  by_cases fits : st.msg.length < 2 ^ 32
  · rw [Nat.mod_eq_of_lt fits, check_true rfl, readSpan_eq_some.mpr ⟨rfl, rfl⟩, if_pos fits]
    simp [com, r, pure, Except.pure]
  · have shorter : st.msg.length % 2 ^ 32 < 2 ^ 32 := Nat.mod_lt _ (by decide)
    rw [check_false (by omega), if_neg fits]

end Kkw

theorem user_state_read_back_iff (kkw : Kkw.BlindUserState) (msg : List Byte) (com : HmCommitment)
    (r : Nonces) (binius : Binius.UserState) :
    (Kkw.blindReadUserState (Kkw.blindWriteUserState kkw) = .ok kkw ↔ kkw.msg.length < 2 ^ 32) ∧
    (Longfellow.readUserState (Longfellow.writeUserState (.committed msg com r)) =
      .ok (.committed msg com r) ↔ msg.length < 2 ^ 32 - 4) ∧
    (Binius.readUserState (Binius.writeUserState binius) = .ok binius ↔
      binius.opening.msg.length < 2 ^ 32) := by
  constructor
  · rw [Kkw.blindReadUserState_write, guarded_eq_ok]
  constructor
  · rw [Longfellow.readUserState_write, guarded_eq_ok]
  · rw [Binius.readUserState_write, guarded_eq_ok]

section LongMessage

/-- A message of 4 GiB. -/
def longMessage : List Byte := List.replicate (2 ^ 32) 0

def zeroCommitment : HmCommitment :=
  ⟨.replicate _ (.replicate _ (.replicate _ 0)), .replicate _ (.replicate _ 0), .replicate _ 0⟩

def zeroNonces : Nonces := .replicate _ (.replicate _ 0)

/-- None of the three programs reads it back. -/
theorem long_message_lost :
    let kkw : Kkw.BlindUserState := ⟨longMessage, .replicate _ 0, .replicate _ 0⟩
    let longfellow := Longfellow.UserState.committed longMessage zeroCommitment zeroNonces
    let binius : Binius.UserState := ⟨⟨longMessage, zeroNonces⟩, zeroCommitment⟩
    Kkw.blindReadUserState (Kkw.blindWriteUserState kkw) ≠ .ok kkw ∧
    Longfellow.readUserState (Longfellow.writeUserState longfellow) ≠ .ok longfellow ∧
    Binius.readUserState (Binius.writeUserState binius) ≠ .ok binius := by
  have length : longMessage.length = 2 ^ 32 := List.length_replicate
  intro kkw longfellow binius
  rw [Kkw.blindReadUserState_write, Longfellow.readUserState_write, Binius.readUserState_write]
  simp only [ne_eq, guarded_eq_ok, kkw, longfellow, binius, length]
  decide

end LongMessage

end BlindSig
