import BlindSig.Records

/-! The longfellow user state on the wire: `msg_len || msg || a || b || y || r`, with the
length a little-endian `uint32_t`. -/
namespace BlindSig.Longfellow

structure UserState where
  msg : List Byte
  com : HmCommitment
  opening : CommitmentOpening
  deriving DecidableEq

/-- The state `user_commit` stores: the message stands in it twice. -/
def UserState.committed (msg : List Byte) (com : HmCommitment) (r : Nonces) : UserState :=
  { msg, com, opening := { msg, r } }

def pushU32le (v : Word) : List Byte := (le32Bytes v).toList

def readU32le (p : List Byte) : Option (Word × List Byte) :=
  (readArray 4 p).map fun (b, p) => (le32Word b, p)

def pushCommitment (com : HmCommitment) : List Byte :=
  com.a.toList.flatMap (fun line => line.toList.flatMap Vector.toList) ++
    (com.b.toList.flatMap Vector.toList ++ com.y.toList)

def parseCommitment (p : List Byte) : Option (HmCommitment × List Byte) := do
  let (a, p) ← readLoop (readLoop (readArray nFe) nNonce) nLines p
  let (b, p) ← readLoop (readArray nFe) nLines p
  let (y, p) ← readArray nY p
  return (⟨a, b, y⟩, p)

def writeUserState (state : UserState) : List Byte :=
  pushU32le (BitVec.ofNat 32 state.msg.length) ++ state.msg ++ pushCommitment state.com ++
    state.opening.r.toList.flatMap Vector.toList

/-- `4 + msg_len` is a `uint32_t` sum; the two constants after it are of type `size_t`. -/
def readUserState (buf : List Byte) : Checked String UserState := do
  check (4 ≤ buf.length) "read_user_state: too short"
  let (msgLen, p) ← fetch (readU32le buf)
  check (buf.length = (4 + msgLen).toNat + commitmentBytes + nNonce * nFe)
    "read_user_state: wrong size"
  let (msg, p) ← fetch (readSpan msgLen.toNat p)
  let (com, p) ← fetch (parseCommitment p)
  let (r, _) ← fetch (readLoop (readArray nFe) nNonce p)
  return { msg, com, opening := { msg, r } }

section Codecs

theorem readU32le_eq : readU32le = Codec.u32.read := rfl

theorem parseCommitment_eq : parseCommitment = commitmentCodec.read := by
  funext p
  exact (commitmentCodec_read p).symm

/-- The fixed-size tail of the state. -/
def tailCodec : Codec (HmCommitment × Nonces) := commitmentCodec.seq noncesCodec

@[simp] theorem tailCodec_width : tailCodec.width = 352 := rfl

theorem writeUserState_eq (state : UserState) :
    writeUserState state = Codec.u32.write (BitVec.ofNat 32 state.msg.length) ++
      (state.msg ++ tailCodec.write (state.com, state.opening.r)) := by
  simp only [writeUserState, List.append_assoc]
  rfl

end Codecs

section Reader

/-- Fewer than four bytes hold no length. -/
theorem readUserState_short {buf : List Byte} (short : buf.length < 4) :
    readUserState buf = .error (.check "read_user_state: too short") := by
  rw [readUserState, check_false (Nat.not_le.mpr short)]
  rfl

/-- What the reader does after a length field, as one expression. -/
theorem readUserState_frame (len : Word) (p : List Byte) :
    readUserState (Codec.u32.write len ++ p) = (do
      check (p.length = (4 + len).toNat + 348) "read_user_state: wrong size"
      let (msg, p) ← fetch (readSpan len.toNat p)
      let (tail, _) ← fetch (tailCodec.read p)
      return { msg, com := tail.1, opening := { msg, r := tail.2 } }) := by
  have enough : 4 ≤ (Codec.u32.write len ++ p).length := by
    simp only [List.length_append, Codec.length_write]
    exact Nat.le_add_right 4 _
  have size : (Codec.u32.write len ++ p).length = (4 + len).toNat + commitmentBytes + nNonce * nFe ↔
      p.length = (4 + len).toNat + 348 := by
    simp only [List.length_append, Codec.length_write]
    change 4 + p.length = (4 + len).toNat + 256 + 96 ↔ _
    omega
  rw [readUserState, check_true enough, readU32le_eq, Codec.read_write]
  simp only [fetch_some, size, Except.bind, bind]
  cases check (p.length = (4 + len).toNat + 348) "read_user_state: wrong size" with
  | error e => rfl
  | ok u =>
    cases readSpan len.toNat p with
    | none => rfl
    | some msg =>
      rw [parseCommitment_eq]
      simp only [fetch_some, tailCodec, Codec.seq]
      cases commitmentCodec.read msg.2 with
      | none => rfl
      | some com =>
        change _ = Except.bind (fetch (Option.bind (noncesCodec.read com.2) _)) _
        change Except.bind (fetch (noncesCodec.read com.2)) _ = _
        cases noncesCodec.read com.2 <;> rfl

theorem readUserState_wrongSize {len : Word} {p : List Byte}
    (size : p.length ≠ (4 + len).toNat + 348) :
    readUserState (Codec.u32.write len ++ p) = .error (.check "read_user_state: wrong size") := by
  rw [readUserState_frame, check_false size]
  rfl

/-- When `4 + msg_len` does not wrap, an accepted buffer is the encoding of the state. -/
theorem readUserState_accepts {len : Word} {p : List Byte} (fits : 4 + len.toNat < 2 ^ 32)
    (size : p.length = (4 + len).toNat + 348) :
    ∃ state, readUserState (Codec.u32.write len ++ p) = .ok state ∧
      state.msg.length = len.toNat ∧ writeUserState state = Codec.u32.write len ++ p := by
  have sum : (4 + len).toNat = 4 + len.toNat := by
    rw [BitVec.toNat_add]
    exact Nat.mod_eq_of_lt fits
  have split : p = p.take len.toNat ++ p.drop len.toNat := (List.take_append_drop _ _).symm
  have front : (p.take len.toNat).length = len.toNat := by
    simp only [List.length_take]
    omega
  obtain ⟨⟨com, r⟩, rest, taken, parts⟩ := tailCodec.exists_read (p := p.drop len.toNat) (by
    simp only [tailCodec_width, List.length_drop]
    omega)
  have spent : rest = [] := by
    have total := congrArg List.length parts
    simp only [List.length_drop, List.length_append, Codec.length_write, tailCodec_width] at total
    exact List.length_eq_zero_iff.mp (by omega)
  refine ⟨⟨p.take len.toNat, com, ⟨p.take len.toNat, r⟩⟩, ?_, front, ?_⟩
  · rw [readUserState_frame, check_true size, readSpan_eq_some.mpr ⟨split, front⟩]
    simp [taken, bind, Except.bind, pure, Except.pure]
  · rw [writeUserState_eq]
    simp only [front, BitVec.ofNat_toNat, BitVec.setWidth_eq]
    rw [spent, List.append_nil] at parts
    rw [← parts, ← split]

/-- When it wraps, the size check compares against a length the buffer does not have. -/
theorem readUserState_wraps {len : Word} {p : List Byte} (wraps : 2 ^ 32 ≤ 4 + len.toNat)
    (size : p.length = (4 + len).toNat + 348) :
    readUserState (Codec.u32.write len ++ p) = .error .outOfBounds := by
  have below := len.isLt
  have sum : (4 + len).toNat = 4 + len.toNat - 2 ^ 32 := by
    rw [BitVec.toNat_add]
    change (4 + len.toNat) % 2 ^ 32 = _
    omega
  have past : readSpan len.toNat p = none := by
    rw [readSpan, if_neg]
    omega
  rw [readUserState_frame, check_true size, past]
  rfl

end Reader

/-- The reader refused the buffer, or it stayed inside it and returned the state it encodes. -/
def Canonical (buf : List Byte) : Checked String UserState → Prop
  | .error (.check _) => True
  | .error .outOfBounds => False
  | .ok state => (readU32le buf).map (fun x => x.1.toNat) = some state.msg.length ∧
      writeUserState state = buf

/-- The length field is one of the four largest, and the buffer ends that many bytes after
its fixed-size parts as the wrapped sum says. -/
def LengthWraps (buf : List Byte) : Prop :=
  ∃ len p, readU32le buf = some (len, p) ∧ 2 ^ 32 ≤ 4 + len.toNat ∧
    buf.length = 4 + len.toNat - 2 ^ 32 + 352

theorem read_user_state_canonical_iff (buf : List Byte) :
    Canonical buf (readUserState buf) ↔ ¬ LengthWraps buf := by
  rcases Nat.lt_or_ge buf.length 4 with short | enough
  · rw [readUserState_short short]
    simp only [Canonical, true_iff]
    rintro ⟨len, p, taken, _, size⟩
    omega
  obtain ⟨len, p, taken, rfl⟩ := Codec.u32.exists_read enough
  have total : (Codec.u32.write len ++ p).length = 4 + p.length := by
    simp only [List.length_append, Codec.length_write]
    rfl
  have below := len.isLt
  have sum : (4 + len).toNat = (4 + len.toNat) % 2 ^ 32 := BitVec.toNat_add 4 len
  have wrapping : LengthWraps (Codec.u32.write len ++ p) ↔
      2 ^ 32 ≤ 4 + len.toNat ∧ p.length = (4 + len).toNat + 348 := by
    simp only [LengthWraps, readU32le_eq, taken, total, Option.some.injEq, Prod.mk.injEq]
    constructor
    · rintro ⟨_, _, ⟨rfl, rfl⟩, wraps, size⟩
      omega
    · rintro ⟨wraps, size⟩
      exact ⟨len, p, ⟨rfl, rfl⟩, wraps, by omega⟩
  by_cases size : p.length = (4 + len).toNat + 348
  · rcases Nat.lt_or_ge (4 + len.toNat) (2 ^ 32) with fits | wraps
    · obtain ⟨state, accepted, length, written⟩ := readUserState_accepts fits size
      rw [accepted, wrapping]
      simp only [Canonical, readU32le_eq, taken, Option.map_some, length, written, and_self,
        true_iff]
      omega
    · rw [readUserState_wraps wraps size, wrapping]
      simp only [Canonical, false_iff, not_not]
      exact ⟨wraps, size⟩
  · rw [readUserState_wrongSize size, wrapping]
    simp only [Canonical, true_iff, not_and]
    exact fun _ => size

/-- 352 bytes with the length field `0xFFFFFFFC`: the message is read past the buffer. -/
theorem read_user_state_past_end :
    ¬ Canonical ([0xFC, 0xFF, 0xFF, 0xFF] ++ List.replicate 348 0)
      (readUserState ([0xFC, 0xFF, 0xFF, 0xFF] ++ List.replicate 348 0)) := by
  have field : ([0xFC, 0xFF, 0xFF, 0xFF] : List Byte) = Codec.u32.write 0xFFFFFFFC := by decide
  rw [field, readUserState_wraps (by decide) (by rw [List.length_replicate]; rfl)]
  exact id

/-- A stored state comes back unless its length, or that length plus four, does not fit. -/
theorem readUserState_write (msg : List Byte) (com : HmCommitment) (r : Nonces) :
    readUserState (writeUserState (.committed msg com r)) =
      if msg.length < 2 ^ 32 - 4 then .ok (.committed msg com r)
      else .error (.check "read_user_state: wrong size") := by
  have tail : (tailCodec.write (com, r)).length = 352 := tailCodec.length_write _
  have sum : (4 + BitVec.ofNat 32 msg.length).toNat = (4 + msg.length % 2 ^ 32) % 2 ^ 32 := by
    rw [BitVec.toNat_add, BitVec.toNat_ofNat]
    rfl
  have read : tailCodec.read (tailCodec.write (com, r)) = some ((com, r), []) :=
    tailCodec.read_eq_some.mpr (List.append_nil _).symm
  rw [writeUserState_eq]
  by_cases fits : msg.length < 2 ^ 32 - 4
  · have low : msg.length % 2 ^ 32 = msg.length := Nat.mod_eq_of_lt (by omega)
    rw [readUserState_frame, if_pos fits, check_true (by
      simp only [UserState.committed, List.length_append, tail]
      omega), BitVec.toNat_ofNat]
    simp only [UserState.committed, low]
    rw [readSpan_eq_some.mpr ⟨rfl, rfl⟩]
    simp [read, bind, Except.bind, pure, Except.pure]
  · rw [if_neg fits, readUserState_wrongSize]
    simp only [UserState.committed, List.length_append, tail]
    omega

end BlindSig.Longfellow
