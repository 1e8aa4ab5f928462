import BlindSig.Kkw.Shared
import BlindSig.Kkw.XmssKeyPair

/-! Every call of the tweakable hash and of the keyed XOF, as the bytes that are hashed. -/
namespace BlindSig.Kkw

section Bytes

theorem eq_of_byteAt {x y : Word} (same : ∀ i : Fin 4, byteAt x i = byteAt y i) : x = y := by
  rw [← le32_byteAt x, ← le32_byteAt y]
  exact congrArg le32 (funext same)

theorem putEpochBe_injective : Function.Injective putEpochBe := by
  intro x y same
  apply eq_of_byteAt
  intro i
  have byte := congrArg (fun v : Vector Byte 4 => v[3 - i.val]) same
  simpa only [putEpochBe, Vector.getElem_ofFn, show 3 - (3 - i.val) = i.val by omega] using byte

theorem le32Bytes_injective : Function.Injective le32Bytes :=
  Function.LeftInverse.injective le32Word_le32Bytes

theorem flatMap_injective {f : α → List β} (size : ∀ x y, (f x).length = (f y).length)
    (inj : Function.Injective f) {l l' : List α} (lengths : l.length = l'.length)
    (same : l.flatMap f = l'.flatMap f) : l = l' := by
  induction l generalizing l' with
  | nil => exact (List.length_eq_zero_iff.mp lengths.symm).symm
  | cons x l ih =>
    cases l' with
    | nil => cases lengths
    | cons y l' =>
      obtain ⟨head, tail⟩ := List.append_inj same (size x y)
      rw [inj head, ih (Nat.succ.inj lengths) tail]

theorem wordBytes_injective {k : Nat} : Function.Injective (wordBytes (k := k)) := by
  intro x y same
  have stored := Vector.toList_inj.mp same
  apply Vector.ext
  intro i hi
  rw [← loadWord_storeWords x i (by omega), ← loadWord_storeWords y i (by omega), stored]

theorem rowBytes_injective {m k : Nat} : Function.Injective (rowBytes (m := m) (k := k)) := by
  intro x y same
  apply Vector.toList_inj.mp
  exact flatMap_injective (by simp [wordBytes]) wordBytes_injective (by simp) same

theorem flatMap_toList_injective {m k : Nat} {x y : Vector (Vector α k) m}
    (same : x.toList.flatMap Vector.toList = y.toList.flatMap Vector.toList) : x = y := by
  apply Vector.toList_inj.mp
  exact flatMap_injective (by simp) (fun _ _ => Vector.toList_inj.mp) (by simp) same

theorem join_injective {m k : Nat} (pos : 0 < m) :
    Function.Injective (join : Vector (Vector α m) k → Vector α (k * m)) := by
  intro x y same
  apply Vector.ext
  intro i hi
  apply Vector.ext
  intro j hj
  have inside : i * m + j < k * m := by
    have := Nat.mul_le_mul_right m (Nat.succ_le_of_lt hi)
    rw [Nat.succ_mul] at this
    omega
  have quotient : (i * m + j) / m = i := by
    rw [Nat.mul_comm, Nat.mul_add_div pos, Nat.div_eq_of_lt hj, Nat.add_zero]
  have remainder : (i * m + j) % m = j := by
    rw [Nat.mul_comm, Nat.mul_add_mod, Nat.mod_eq_of_lt hj]
  have entry := congrArg (fun v : Vector α (k * m) => v[i * m + j]) same
  simpa only [join, Vector.getElem_ofFn, quotient, remainder] using entry

end Bytes

section Calls

/-- What a call of the tweakable hash is for. -/
inductive Purpose where
  | message | chainStep | treeNode | publicKey
  | hmY | hmDigest
  | ppcom | hj | hPrime | hOut | hStar1 | hStar2 | hStar3 | hStar | fs | grind | prg | mHat
  deriving DecidableEq

/-- The calls with what they hash. The commitment of a party has the auxiliary words in it or
has not, the commitments to all parties are those of one instance, and the three transcript
hashes run over all `M_KKW` instances. -/
inductive ThCall (P : Params) where
  | message (pkSeed : PkSeed) (epoch : Word) (nonce : Nonce) (msg : List Byte)
  | chainStep (pkSeed : PkSeed) (epoch : Word) (input : Node) (chainIdx pos : Byte)
  | treeNode (pkSeed : PkSeed) (left right : Node) (level : Fin xmssH) (index : Word)
  | publicKey (pkSeed : PkSeed) (epoch : Word) (pkHashes : Vector Node xmssWotsLen)
  | hmY (r : Vector Byte hmRBytes)
  | hmDigest (com : Vector Byte hmComBytes)
  | ppcom (party : Fin P.parties) (seed : Seed)
  | ppcomAux (seed : Seed) (aux : Vector Word ySize)
  | hj (coms : Vector (Vector Byte 32) P.parties)
  | hPrime (dPub : Witness) (s : Vector (Vector Word ySize) P.parties) (rJ : Vector Byte 32)
  | hOut (yp : Vector (Vector Word 8) P.parties)
  | hStar1 (hJs : Vector (Vector Byte 32) P.mKkw)
  | hStar2 (hPrimes : Vector (Vector Byte 32) P.mKkw)
  | hStar3 (hOuts : Vector (Vector Byte 32) P.mKkw)
  | hStar (hVal hPrimeVal hOutVal : Vector Byte 32)
  | fs (msg : Vector Byte 32) (pubout : Vector Word 8) (pkSeed : PkSeed)
      (nonce hStarVal : Vector Byte 32)
  | grind (hPre : Vector Byte 32) (ctr : Word)
  | prg (state : Vector Byte 32) (ctr : Word)
  | mHat (msg : List Byte)

namespace ThCall

variable {P : Params}

def purpose : ThCall P → Purpose
  | .message .. => .message
  | .chainStep .. => .chainStep
  | .treeNode .. => .treeNode
  | .publicKey .. => .publicKey
  | .hmY .. => .hmY
  | .hmDigest .. => .hmDigest
  | .ppcom .. | .ppcomAux .. => .ppcom
  | .hj .. => .hj
  | .hPrime .. => .hPrime
  | .hOut .. => .hOut
  | .hStar1 .. => .hStar1
  | .hStar2 .. => .hStar2
  | .hStar3 .. => .hStar3
  | .hStar .. => .hStar
  | .fs .. => .fs
  | .grind .. => .grind
  | .prg .. => .prg
  | .mHat .. => .mHat

def domain : ThCall P → List Byte
  | .message pkSeed epoch _ _ => (pkSeed ++ single xmssTweakMessage ++ putEpochBe epoch).toList
  | .chainStep _ _ input _ _ => (input ++ single xmssTweakChain).toList
  | .treeNode pkSeed _ _ level index =>
    (pkSeed ++ pair xmssTweakTree (byteAt (BitVec.ofNat 32 level) 0) ++ le32Bytes index).toList
  | .publicKey pkSeed epoch _ => (pkSeed ++ single xmssTweakLeaf ++ putEpochBe epoch).toList
  | .hmY _ => hmDomY.toList
  | .hmDigest _ => hmDomD.toList
  | .ppcom _ _ | .ppcomAux _ _ => chars kkwDomPpcom
  | .hj _ => chars kkwDomHj
  | .hPrime _ _ _ => chars kkwDomHprime
  | .hOut _ => chars kkwDomHout
  | .hStar1 _ => chars kkwDomHstar1
  | .hStar2 _ => chars kkwDomHstar2
  | .hStar3 _ => chars kkwDomHstar3
  | .hStar _ _ _ => chars kkwDomHstar
  | .fs _ _ _ _ _ => chars kkwDomFs
  | .grind _ _ => chars kkwDomGrind
  | .prg _ _ => chars kkwDomPrg
  | .mHat _ => chars kkwDomMhat

def data : ThCall P → List Byte
  | .message _ _ nonce msg => nonce.toList ++ msg
  | .chainStep pkSeed epoch _ chainIdx pos =>
    (pkSeed ++ putEpochBe epoch ++ pair chainIdx pos).toList
  | .treeNode _ left right _ _ => (left ++ right).toList
  | .publicKey _ _ pkHashes => (join pkHashes).toList
  | .hmY r => r.toList
  | .hmDigest com => com.toList
  | .ppcom party seed => [BitVec.ofNat 8 party] ++ seed.toList
  | .ppcomAux seed aux => [0] ++ seed.toList ++ wordBytes aux
  | .hj coms => coms.toList.flatMap Vector.toList
  | .hPrime dPub s rJ => dPub.toList ++ rowBytes s ++ rJ.toList
  | .hOut yp => rowBytes yp
  | .hStar1 hJs => hJs.toList.flatMap Vector.toList
  | .hStar2 hPrimes => hPrimes.toList.flatMap Vector.toList
  | .hStar3 hOuts => hOuts.toList.flatMap Vector.toList
  | .hStar hVal hPrimeVal hOutVal => (hVal ++ hPrimeVal ++ hOutVal).toList
  | .fs msg pubout pkSeed nonce hStarVal =>
    (msg ++ join (pubout.map putEpochBe) ++ pkSeed ++ nonce ++ hStarVal).toList
  | .grind hPre ctr => (hPre ++ putEpochBe ctr).toList
  | .prg state ctr => (state ++ putEpochBe ctr).toList
  | .mHat msg => msg

/-- `LE32(domain_len) || domain || data`. -/
def framed (c : ThCall P) : List Byte := (frame c.domain.length).toList ++ c.domain ++ c.data

/-- The purpose shows in the domain: the length tells the three XMSS layouts from each other and
from the tags, the tweak the two of one length, and the tags differ. -/
def purposeOf (domain : List Byte) : Option Purpose :=
  if domain.length = 17 then some .chainStep
  else if domain.length = 22 then some .treeNode
  else if domain.length = 21 then
    if domain[16]? = some xmssTweakMessage then some .message else some .publicKey
  else [(hmDomY.toList, Purpose.hmY), (hmDomD.toList, .hmDigest), (chars kkwDomPpcom, .ppcom),
    (chars kkwDomHj, .hj), (chars kkwDomHprime, .hPrime), (chars kkwDomHout, .hOut),
    (chars kkwDomHstar1, .hStar1), (chars kkwDomHstar2, .hStar2), (chars kkwDomHstar3, .hStar3),
    (chars kkwDomHstar, .hStar), (chars kkwDomFs, .fs), (chars kkwDomGrind, .grind),
    (chars kkwDomPrg, .prg), (chars kkwDomMhat, .mHat)].lookup domain

/-- The byte after the 16 bytes of a seed. -/
theorem tweak_eq (pkSeed : PkSeed) (tweak : Byte) (epoch : Vector Byte 4) :
    (pkSeed ++ single tweak ++ epoch).toList[16]? = some tweak := by
  rw [Vector.getElem?_toList, Vector.getElem?_append_left (by omega),
    Vector.getElem?_append_right (by omega)]
  rfl

theorem purposeOf_domain (c : ThCall P) : purposeOf c.domain = some c.purpose := by
  cases c with
  | message pkSeed epoch _ _ =>
    simp only [purposeOf, domain, purpose, tweak_eq]
    simp
  | chainStep _ _ input _ _ => simp [purposeOf, domain, purpose]
  | treeNode pkSeed _ _ level index => simp [purposeOf, domain, purpose]
  | publicKey pkSeed epoch _ =>
    have other : some xmssTweakLeaf ≠ some xmssTweakMessage := by decide
    simp only [purposeOf, domain, purpose, tweak_eq, if_neg other]
    simp
  | _ => rfl

theorem length_domain (c : ThCall P) : c.domain.length ≤ blake3ThMaxDomain := by
  cases c with
  | message | chainStep | treeNode | publicKey =>
    simp only [domain, Vector.length_toList]
    decide
  | _ => exact Nat.le_of_ble_eq_true rfl

/-- The framing keeps domain and data apart. -/
theorem framed_inj {c c' : ThCall P} (same : c.framed = c'.framed) :
    c.domain = c'.domain ∧ c.data = c'.data := by
  unfold framed at same
  rw [List.append_assoc, List.append_assoc] at same
  obtain ⟨front, back⟩ := List.append_inj same (by simp)
  have lengths : c.domain.length = c'.domain.length := by
    have word := congrArg BitVec.toNat (le32Bytes_injective (Vector.toList_inj.mp front))
    have short : _ ≤ 28 := c.length_domain
    have short' : _ ≤ 28 := c'.length_domain
    rw [BitVec.toNat_ofNat, BitVec.toNat_ofNat] at word
    omega
  exact List.append_inj back lengths

/-- Calls for one purpose over the same domain and data have the same parameters. -/
theorem eq_of_purpose {c c' : ThCall P} (kind : c.purpose = c'.purpose)
    (domains : c.domain = c'.domain) (datas : c.data = c'.data) : c = c' := by
  cases c with
  | message pkSeed epoch nonce msg =>
    cases c' with
    | message pkSeed' epoch' nonce' msg' =>
      obtain ⟨front, epochs⟩ := Vector.append_inj (Vector.toList_inj.mp domains)
      obtain ⟨rfl, _⟩ := Vector.append_inj front
      obtain ⟨nonces, rfl⟩ := List.append_inj datas (by simp)
      rw [putEpochBe_injective epochs, Vector.toList_inj.mp nonces]
    | _ => cases kind
  | chainStep pkSeed epoch input chainIdx pos =>
    cases c' with
    | chainStep pkSeed' epoch' input' chainIdx' pos' =>
      obtain ⟨rfl, _⟩ := Vector.append_inj (Vector.toList_inj.mp domains)
      obtain ⟨front, tweaks⟩ := Vector.append_inj (Vector.toList_inj.mp datas)
      obtain ⟨rfl, epochs⟩ := Vector.append_inj front
      obtain ⟨rfl, rfl⟩ : chainIdx = chainIdx' ∧ pos = pos' := by simpa using tweaks
      rw [putEpochBe_injective epochs]
    | _ => cases kind
  | treeNode pkSeed left right level index =>
    cases c' with
    | treeNode pkSeed' left' right' level' index' =>
      obtain ⟨front, indices⟩ := Vector.append_inj (Vector.toList_inj.mp domains)
      obtain ⟨rfl, tweaks⟩ := Vector.append_inj front
      obtain ⟨rfl, rfl⟩ := Vector.append_inj (Vector.toList_inj.mp datas)
      have bytes : byteAt (BitVec.ofNat 32 level) 0 = byteAt (BitVec.ofNat 32 level') 0 := by
        simpa using tweaks
      have levels := congrArg BitVec.toNat bytes
      simp only [byteAt, Nat.mul_zero, BitVec.ushiftRight_zero, BitVec.toNat_setWidth,
        BitVec.toNat_ofNat] at levels
      have few : level.val < 32 := level.isLt
      have few' : level'.val < 32 := level'.isLt
      rw [le32Bytes_injective indices, Fin.ext (by omega : level.val = level'.val)]
    | _ => cases kind
  | publicKey pkSeed epoch pkHashes =>
    cases c' with
    | publicKey pkSeed' epoch' pkHashes' =>
      obtain ⟨front, epochs⟩ := Vector.append_inj (Vector.toList_inj.mp domains)
      obtain ⟨rfl, _⟩ := Vector.append_inj front
      rw [putEpochBe_injective epochs,
        join_injective (by decide) (Vector.toList_inj.mp datas)]
    | _ => cases kind
  | hmY r =>
    cases c' with
    | hmY r' => rw [Vector.toList_inj.mp datas]
    | _ => cases kind
  | hmDigest com =>
    cases c' with
    | hmDigest com' => rw [Vector.toList_inj.mp datas]
    | _ => cases kind
  | ppcom party seed =>
    cases c' with
    | ppcom party' seed' =>
      obtain ⟨head, seeds⟩ := List.append_inj datas rfl
      have bytes := congrArg BitVec.toNat (List.cons.inj head).1
      rw [BitVec.toNat_ofNat, BitVec.toNat_ofNat] at bytes
      have few := P.others_le
      have inside : party.val < P.others + 1 := party.isLt
      have inside' : party'.val < P.others + 1 := party'.isLt
      rw [Fin.ext (by omega : party.val = party'.val), Vector.toList_inj.mp seeds]
    | ppcomAux seed' aux' =>
      have lengths := congrArg List.length datas
      simp [data, wordBytes] at lengths
    | _ => cases kind
  | ppcomAux seed aux =>
    cases c' with
    | ppcom party' seed' =>
      have lengths := congrArg List.length datas
      simp [data, wordBytes] at lengths
    | ppcomAux seed' aux' =>
      obtain ⟨front, words⟩ := List.append_inj datas (by simp)
      obtain ⟨_, seeds⟩ := List.append_inj front rfl
      rw [Vector.toList_inj.mp seeds, wordBytes_injective words]
    | _ => cases kind
  | hj coms =>
    cases c' with
    | hj coms' => rw [flatMap_toList_injective datas]
    | _ => cases kind
  | hPrime dPub s rJ =>
    cases c' with
    | hPrime dPub' s' rJ' =>
      obtain ⟨front, rs⟩ := List.append_inj' datas (by simp)
      obtain ⟨dPubs, rows⟩ := List.append_inj front (by simp)
      rw [Vector.toList_inj.mp dPubs, rowBytes_injective rows, Vector.toList_inj.mp rs]
    | _ => cases kind
  | hOut yp =>
    cases c' with
    | hOut yp' => rw [rowBytes_injective datas]
    | _ => cases kind
  | hStar1 hJs =>
    cases c' with
    | hStar1 hJs' => rw [flatMap_toList_injective datas]
    | _ => cases kind
  | hStar2 hPrimes =>
    cases c' with
    | hStar2 hPrimes' => rw [flatMap_toList_injective datas]
    | _ => cases kind
  | hStar3 hOuts =>
    cases c' with
    | hStar3 hOuts' => rw [flatMap_toList_injective datas]
    | _ => cases kind
  | hStar hVal hPrimeVal hOutVal =>
    cases c' with
    | hStar hVal' hPrimeVal' hOutVal' =>
      obtain ⟨front, rfl⟩ := Vector.append_inj (Vector.toList_inj.mp datas)
      obtain ⟨rfl, rfl⟩ := Vector.append_inj front
      rfl
    | _ => cases kind
  | fs msg pubout pkSeed nonce hStarVal =>
    cases c' with
    | fs msg' pubout' pkSeed' nonce' hStarVal' =>
      obtain ⟨front, hStars⟩ := Vector.append_inj (Vector.toList_inj.mp datas)
      obtain ⟨front, nonces⟩ := Vector.append_inj front
      obtain ⟨front, pkSeeds⟩ := Vector.append_inj front
      obtain ⟨msgs, outputs⟩ := Vector.append_inj front
      have words := join_injective (by decide) outputs
      rw [hStars, nonces, pkSeeds, msgs,
        (Vector.map_inj_right fun _ _ => @putEpochBe_injective _ _).mp words]
    | _ => cases kind
  | grind hPre ctr =>
    cases c' with
    | grind hPre' ctr' =>
      obtain ⟨rfl, ctrs⟩ := Vector.append_inj (Vector.toList_inj.mp datas)
      rw [putEpochBe_injective ctrs]
    | _ => cases kind
  | prg state ctr =>
    cases c' with
    | prg state' ctr' =>
      obtain ⟨rfl, ctrs⟩ := Vector.append_inj (Vector.toList_inj.mp datas)
      rw [putEpochBe_injective ctrs]
    | _ => cases kind
  | mHat msg =>
    cases c' with
    | mHat msg' => rw [show msg = msg' from datas]
    | _ => cases kind

theorem framed_injective : Function.Injective (framed (P := P)) := by
  intro c c' same
  obtain ⟨domains, datas⟩ := framed_inj same
  have kind : c.purpose = c'.purpose := by
    have found := congrArg purposeOf domains
    rw [purposeOf_domain, purposeOf_domain] at found
    exact Option.some.inj found
  exact eq_of_purpose kind domains datas

/-- The output of the call. -/
def out (H : Hasher) (c : ThCall P) (outLen : Nat) : Vector Byte outLen :=
  th H c.domain c.data outLen

end ThCall

end Calls

section Xof

/-- The calls of the keyed XOF. -/
inductive XofCall where
  | kkwTape
  | kkwSeeds
  | kkwXshare
  | xmssWotsSk (leafIndex : Word)
  | xmssUpper

namespace XofCall

def domain : XofCall → List Char
  | .kkwTape => blake3XofDomKkwTape
  | .kkwSeeds => blake3XofDomKkwSeeds
  | .kkwXshare => blake3XofDomKkwXshare
  | .xmssWotsSk _ => blake3XofDomXmssWotsSk
  | .xmssUpper => blake3XofDomXmssUpper

def data : XofCall → List Byte
  | .xmssWotsSk leafIndex => (putEpochBe leafIndex).toList
  | _ => []

/-- Everything the keyed hash absorbs. -/
def input (c : XofCall) : List Byte :=
  xofFraming ++ (List.range 8).map (fun i => byteAt (BitVec.ofNat 64 (chars c.domain).length) i) ++
    chars c.domain ++ c.data

/-- The five purposes differ in the length of their input. -/
def size : XofCall → Nat
  | .kkwTape => 69
  | .kkwSeeds => 75
  | .kkwXshare => 77
  | .xmssWotsSk _ => 85
  | .xmssUpper => 79

theorem length_input (c : XofCall) : c.input.length = c.size := by
  cases c with
  | xmssWotsSk leafIndex => simp [input, domain, data, size, chars, xofFraming, blake3XofDomXmssWotsSk]
  | _ => rfl

theorem input_injective : Function.Injective input := by
  intro c c' same
  have sizes : c.size = c'.size := by rw [← length_input, same, length_input]
  cases c with
  | xmssWotsSk leafIndex =>
    cases c' with
    | xmssWotsSk leafIndex' =>
      have leaves := List.append_cancel_left same
      rw [putEpochBe_injective (Vector.toList_inj.mp leaves)]
    | _ => cases sizes
  | _ =>
    cases c' with
    | _ => first | rfl | cases sizes

end XofCall

end Xof

section Program

/-- Every hash that the program computes is one of the calls; that of a party's commitment covers the
auxiliary words where they are given. -/
structure HashCalls (H : Hasher) (P : Params) : Prop where
  out : ∀ (c : ThCall P) (outLen : Nat), outLen ≤ blake3OutLen →
    c.out H outLen = H.deriveKey c.framed outLen
  message : ∀ pkSeed epoch nonce msg, xmssHashMessage H pkSeed epoch nonce msg =
    (ThCall.message pkSeed epoch nonce msg : ThCall P).out H 32
  chainStep : ∀ pkSeed epoch input chainIdx pos, xmssHashChainStep H pkSeed epoch input chainIdx pos =
    (ThCall.chainStep pkSeed epoch input chainIdx pos : ThCall P).out H 16
  treeNode : ∀ pkSeed left right (level : Fin xmssH) index,
    xmssHashTreeNode H pkSeed left right (BitVec.ofNat 32 level) index =
      (ThCall.treeNode pkSeed left right level index : ThCall P).out H 16
  publicKey : ∀ pkSeed epoch pkHashes, xmssHashPublicKey H pkSeed epoch pkHashes =
    (ThCall.publicKey pkSeed epoch pkHashes : ThCall P).out H 16
  hmY : ∀ r, Kkw.hmY H r = (ThCall.hmY r : ThCall P).out H hmYBytes
  hmDigest : ∀ com, Kkw.hmDigest H com = (ThCall.hmDigest com : ThCall P).out H 32
  ppcom : ∀ (party : Fin P.parties) seed (aux : Option (Vector Word ySize)),
    preprocComParty H party seed aux =
      match aux with
      | some words => if party.val = 0 then (ThCall.ppcomAux seed words : ThCall P).out H 32
          else (ThCall.ppcom party seed : ThCall P).out H 32
      | none => (ThCall.ppcom party seed : ThCall P).out H 32
  hj : ∀ (seeds : Vector Seed P.parties) aux, preprocCommitInstance H seeds aux =
    (ThCall.hj (Vector.ofFn fun i : Fin P.parties =>
      preprocComParty H i seeds[i] (some aux)) : ThCall P).out H 32
  hPrime : ∀ dPub (s : Vector (Vector Word ySize) P.parties) rJ,
    computeHPrime H dPub s rJ = (ThCall.hPrime dPub s rJ : ThCall P).out H 32
  hPrimeVerify : ∀ (e : Fin P.parties) dPub slots msgsE rJ,
    recomputeHPrimeVerify H e dPub slots msgsE rJ =
      (ThCall.hPrime dPub (Vector.ofFn (slotRow e slots msgsE)) rJ : ThCall P).out H 32
  hOut : ∀ yp : Vector (Vector Word 8) P.parties, Kkw.hOut H yp = (ThCall.hOut yp : ThCall P).out H 32
  hStar : ∀ hJAll hPrimeAll hOutAll : Vector (Vector Byte 32) P.mKkw,
    Kkw.hStar H hJAll hPrimeAll hOutAll =
      (ThCall.hStar ((ThCall.hStar1 hJAll : ThCall P).out H 32)
        ((ThCall.hStar2 hPrimeAll : ThCall P).out H 32)
        ((ThCall.hStar3 hOutAll : ThCall P).out H 32) : ThCall P).out H 32
  fs : ∀ msg pubout pkSeed nonce hStarVal, kkwFsPrefix H msg pubout pkSeed nonce hStarVal =
    (ThCall.fs msg pubout pkSeed nonce hStarVal : ThCall P).out H 32
  grind : ∀ hPre ctr, (kkwFsSeed H P hPre ctr).1 = (ThCall.grind hPre ctr : ThCall P).out H 32
  prg : ∀ p : PrgCtx, (prgFill H p).buf = (ThCall.prg p.state p.ctr : ThCall P).out H 32
  mHat : ∀ msg, blindMsgDigest H msg = (ThCall.mHat msg : ThCall P).out H 32
  tape : ∀ seed, expandTape H seed = H.keyed seed XofCall.kkwTape.input tapeSize
  seeds : ∀ seed N, expandSeedStar H seed N = rows (H.keyed seed XofCall.kkwSeeds.input (N * 32))
  xshare : ∀ seed, expandXshare H seed = H.keyed seed XofCall.kkwXshare.input wEnd
  wotsSk : ∀ seed leafIndex, xmssWotsGenSk H seed leafIndex =
    rows (H.keyed seed (XofCall.xmssWotsSk leafIndex).input (xmssWotsLen * 16))
  upper : ∀ seed levels, xmssDeriveUpperSiblings H seed levels =
    rows (H.keyed seed XofCall.xmssUpper.input (levels * 16))

theorem hashCalls (H : Hasher) (P : Params) : HashCalls H P where
  out c outLen fits := th_eq H _ _ _ c.length_domain fits
  message _ _ _ _ := rfl
  chainStep _ _ _ _ _ := rfl
  treeNode _ _ _ _ _ := rfl
  publicKey _ _ _ := rfl
  hmY _ := rfl
  hmDigest _ := rfl
  ppcom party seed aux := by
    cases aux with
    | none => simp [preprocComParty, kkwThParts_eq, kkwTh, ThCall.out, ThCall.domain, ThCall.data]
    | some words =>
      by_cases first : party.val = 0
      · simp [preprocComParty, kkwThParts_eq, first, kkwTh, ThCall.out, ThCall.domain, ThCall.data]
      · simp [preprocComParty, kkwThParts_eq, first, kkwTh, ThCall.out, ThCall.domain, ThCall.data]
  hj _ _ := rfl
  hPrime dPub s rJ := by
    rw [computeHPrime, kkwThParts_eq]
    simp [kkwTh, ThCall.out, ThCall.domain, ThCall.data]
  hPrimeVerify e dPub slots msgsE rJ := by
    rw [recomputeHPrimeVerify, kkwThParts_eq]
    have rows : (List.finRange (P.others + 1)).map (fun p => wordBytes (slotRow e slots msgsE p)) =
        ((Vector.ofFn (slotRow e slots msgsE)).toList.map wordBytes) := by
      rw [Vector.toList_ofFn, List.ofFn_eq_map, List.map_map]
      rfl
    rw [rows]
    simp [kkwTh, ThCall.out, ThCall.domain, ThCall.data, rowBytes, List.flatMap_def]
  hOut _ := rfl
  hStar _ _ _ := rfl
  fs _ _ _ _ _ := rfl
  grind _ _ := rfl
  prg _ := rfl
  mHat _ := rfl
  tape _ := rfl
  seeds _ _ := rfl
  xshare _ := rfl
  wotsSk _ _ := rfl
  upper _ _ := rfl

end Program

/-- Every hash of the program is one of the calls. Equal framed bytes come from equal calls of the
tweakable hash, and equal inputs of the keyed XOF from equal purposes and leaves. -/
theorem hash_calls_separated (P : Params) :
    (∀ H : Hasher, HashCalls H P) ∧
    Function.Injective (@ThCall.framed P) ∧ Function.Injective XofCall.input :=
  ⟨fun H => hashCalls H P, ThCall.framed_injective, XofCall.input_injective⟩

end BlindSig.Kkw
