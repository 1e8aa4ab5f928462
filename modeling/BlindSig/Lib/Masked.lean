import BlindSig.Lib.Xor

/-! Values held as a public masked word and an exclusive-or sharing of its mask.
Local operations act on the public part and on every share alike. A `MaskRel` is a
relation between two evaluations that every local operation preserves, whatever the
numbers of parties; the four ones below read off the plain value, the masks, all but one
share, and the part of the sharing that leaves one party out. -/
namespace BlindSig

open XorGroup

/-- `h` is public; the mask is the exclusive-or of the `n` shares. -/
structure Masked (n : Nat) (A : Type) where
  h : A
  shares : Vector A n
  deriving Repr, DecidableEq

namespace Masked

variable {n k : Nat} {A B C : Type}

/-- Party `i`'s share of the mask. -/
def l (x : Masked n A) (i : Fin n) : A := x.shares[i]

def of (h : A) (l : Fin n → A) : Masked n A := ⟨h, Vector.ofFn l⟩

@[simp] theorem of_h (h : A) (l : Fin n → A) : (of h l).h = h := rfl
@[simp] theorem of_l (h : A) (l : Fin n → A) (i : Fin n) : (of h l).l i = l i := by
  simp [of, Masked.l]

theorem ext {x y : Masked n A} (hh : x.h = y.h) (hl : ∀ i, x.l i = y.l i) : x = y := by
  cases x; cases y
  simp only [mk.injEq]
  refine ⟨hh, Vector.ext fun i hi => ?_⟩
  exact hl ⟨i, hi⟩

/-- The same operation on the public part and on every share. -/
def map (f : A → B) (x : Masked n A) : Masked n B := of (f x.h) (fun i => f (x.l i))

@[simp] theorem map_h (f : A → B) (x : Masked n A) : (x.map f).h = f x.h := rfl
@[simp] theorem map_l (f : A → B) (x : Masked n A) (i : Fin n) : (x.map f).l i = f (x.l i) := by
  simp [map]

def map₂ (f : A → B → C) (x : Masked n A) (y : Masked n B) : Masked n C :=
  of (f x.h y.h) (fun i => f (x.l i) (y.l i))

@[simp] theorem map₂_h (f : A → B → C) (x : Masked n A) (y : Masked n B) :
    (map₂ f x y).h = f x.h y.h := rfl
@[simp] theorem map₂_l (f : A → B → C) (x : Masked n A) (y : Masked n B) (i : Fin n) :
    (map₂ f x y).l i = f (x.l i) (y.l i) := by simp [map₂]

/-- A buffer of sharings, read as a sharing of buffers. -/
def collect (v : Vector (Masked n A) k) : Masked n (Vector A k) :=
  of (v.map Masked.h) (fun i => v.map (fun x => x.l i))

@[simp] theorem collect_h (v : Vector (Masked n A) k) : (collect v).h = v.map Masked.h := rfl
@[simp] theorem collect_l (v : Vector (Masked n A) k) (i : Fin n) :
    (collect v).l i = v.map (fun x => x.l i) := by simp [collect]

section Plain

variable [XorGroup A] [XorGroup B]

/-- A public value: its mask shares are zero. -/
def const (c : A) : Masked n A := of c (fun _ => zeros)

@[simp] theorem const_h (c : A) : (const c : Masked n A).h = c := rfl
@[simp] theorem const_l (c : A) (i : Fin n) : (const c : Masked n A).l i = zeros := by
  simp [const]

/-- A public correction touches the public part only. -/
def xorPublic (c : A) (x : Masked n A) : Masked n A := of (x.h ^^^ c) x.l

/-- The value behind the mask. -/
def plain (x : Masked n A) : A := x.h ^^^ xorAll x.l

theorem plain_map {f : A → B} (linear : XorLinear f) (x : Masked n A) :
    (x.map f).plain = f x.plain := by
  have shares : (x.map f).l = fun i => f (x.l i) := funext (map_l f x)
  simp only [plain, map_h, shares, linear _ _, xorAll_map linear]

@[simp] theorem plain_const (c : A) : (const c : Masked n A).plain = c := by
  have shares : (const c : Masked n A).l = fun _ => zeros := funext (const_l c)
  simp [plain, shares]

theorem map_const {f : A → B} (linear : XorLinear f) (c : A) :
    (const c : Masked n A).map f = const (f c) :=
  ext rfl fun i => by simp [linear.zeros]

theorem plain_map₂_pair (x : Masked n A) (y : Masked n B) :
    (map₂ Prod.mk x y).plain = (x.plain, y.plain) := by
  have shares : (map₂ Prod.mk x y).l = fun i => (x.l i, y.l i) := funext (map₂_l _ x y)
  have fst : (xorAll fun i => (x.l i, y.l i)).1 = xorAll x.l := xorAll_map XorLinear.fst _
  have snd : (xorAll fun i => (x.l i, y.l i)).2 = xorAll y.l := xorAll_map XorLinear.snd _
  simp only [plain, map₂_h, shares]
  exact Prod.ext (congrArg (x.h ^^^ ·) fst) (congrArg (y.h ^^^ ·) snd)

theorem plain_collect (v : Vector (Masked n A) k) : (collect v).plain = v.map plain := by
  have shares : (collect v).l = fun i => v.map (fun x => x.l i) := funext (collect_l v)
  apply Vector.ext
  intro j hj
  have entry : (xorAll fun i => v.map (fun x => x.l i))[j] = xorAll (v[j]).l := by
    rw [xorAll_map (XorLinear.getElem j hj)]
    simp
  simp only [plain, collect_h, shares, getElem_xor, entry, Vector.getElem_map]

/-- Without parties the public part is the value. -/
@[simp] theorem plain_zero (x : Masked 0 A) : x.plain = x.h := by
  simp [plain, xorAll_zero]

end Plain

end Masked

open Masked

/-- A relation between evaluations with `n` and `n'` parties that local operations keep. -/
structure MaskRel (n n' : Nat) where
  rel : {A : Type} → [XorGroup A] → Masked n A → Masked n' A → Prop
  map : ∀ {A B : Type} [XorGroup A] [XorGroup B] {f : A → B} {x : Masked n A}
    {x' : Masked n' A}, XorLinear f → rel x x' → rel (x.map f) (x'.map f)
  pair : ∀ {A B : Type} [XorGroup A] [XorGroup B] {x : Masked n A} {x' : Masked n' A}
    {y : Masked n B} {y' : Masked n' B}, rel x x' → rel y y' →
    rel (map₂ Prod.mk x y) (map₂ Prod.mk x' y')
  collect : ∀ {A : Type} [XorGroup A] {k : Nat} {v : Vector (Masked n A) k}
    {v' : Vector (Masked n' A) k}, (∀ (i : Nat) (h : i < k), rel v[i] v'[i]) →
    rel (Masked.collect v) (Masked.collect v')
  const : ∀ {A : Type} [XorGroup A] (c : A), rel (Masked.const c) (Masked.const c)

namespace MaskRel

variable {n n' : Nat} {A B C : Type} [XorGroup A] [XorGroup B] [XorGroup C] (r : MaskRel n n')

theorem map₂ {f : A → B → C} (linear : XorLinear fun p : A × B => f p.1 p.2)
    {x : Masked n A} {x' : Masked n' A} {y : Masked n B} {y' : Masked n' B}
    (hx : r.rel x x') (hy : r.rel y y') : r.rel (Masked.map₂ f x y) (Masked.map₂ f x' y') := by
  have fused (m : Nat) (u : Masked m A) (v : Masked m B) :
      (Masked.map₂ Prod.mk u v).map (fun p => f p.1 p.2) = Masked.map₂ f u v :=
    Masked.ext rfl (by simp)
  have both := r.map linear (r.pair hx hy)
  rwa [fused, fused] at both

/-- Public corrections may differ where the relation allows it of constants. -/
theorem xorPublic' {c c' : A} (hc : r.rel (Masked.const c) (Masked.const c')) {x : Masked n A}
    {x' : Masked n' A} (hx : r.rel x x') : r.rel (x.xorPublic c) (x'.xorPublic c') := by
  have fused (m : Nat) (u : Masked m A) (c : A) :
      Masked.map₂ (· ^^^ ·) u (Masked.const c) = u.xorPublic c :=
    Masked.ext rfl (by simp [Masked.xorPublic])
  have both := r.map₂ XorLinear.xor_pair hx hc
  rwa [fused, fused] at both

theorem xorPublic (c : A) {x : Masked n A} {x' : Masked n' A} (hx : r.rel x x') :
    r.rel (x.xorPublic c) (x'.xorPublic c) := r.xorPublic' (r.const c) hx

theorem const_map {f : A → B} (linear : XorLinear f) {c c' : A}
    (hc : r.rel (Masked.const c) (Masked.const c')) :
    r.rel (Masked.const (f c)) (Masked.const (f c')) := by
  have mapped := r.map linear hc
  rwa [map_const linear, map_const linear] at mapped

/-- Entrywise lifting to buffers of sharings. -/
def vec {k : Nat} (v : Vector (Masked n A) k) (v' : Vector (Masked n' A) k) : Prop :=
  ∀ (i : Nat) (h : i < k), r.rel v[i] v'[i]

variable {r}

theorem vec.set {v : Vector (Masked n A) k} {v' : Vector (Masked n' A) k} (hv : r.vec v v')
    (i : Nat) (h : i < k) {x : Masked n A} {x' : Masked n' A} (hx : r.rel x x') :
    r.vec (v.set i x h) (v'.set i x' h) := by
  intro j hj
  by_cases same : i = j
  · subst same; simpa using hx
  · simpa [Vector.getElem_set_ne, same] using hv j hj

theorem vec.ofFn {f : Fin k → Masked n A} {f' : Fin k → Masked n' A}
    (h : ∀ i, r.rel (f i) (f' i)) : r.vec (Vector.ofFn f) (Vector.ofFn f') := by
  intro i hi
  simpa using h ⟨i, hi⟩

theorem vec.replicate {x : Masked n A} {x' : Masked n' A} (h : r.rel x x') :
    r.vec (Vector.replicate k x) (Vector.replicate k x') := by
  intro i hi
  simpa using h

theorem vec.append {k m : Nat} {u : Vector (Masked n A) k} {u' : Vector (Masked n' A) k}
    {v : Vector (Masked n A) m} {v' : Vector (Masked n' A) m} (hu : r.vec u u')
    (hv : r.vec v v') : r.vec (u ++ v) (u' ++ v') := by
  intro i hi
  rw [Vector.getElem_append, Vector.getElem_append]
  split
  · exact hu ..
  · exact hv ..

/-- Equal plain values. -/
def unmasking (n n' : Nat) : MaskRel n n' where
  rel x x' := x.plain = x'.plain
  map linear h := by rw [plain_map linear, plain_map linear, h]
  pair hx hy := by rw [plain_map₂_pair, plain_map₂_pair, hx, hy]
  collect h := by
    rw [plain_collect, plain_collect]
    apply Vector.ext
    intro i hi
    simpa using h i hi
  const c := by rw [plain_const, plain_const]

/-- Equality. -/
def same (n : Nat) : MaskRel n n where
  rel x x' := x = x'
  map _ h := by rw [h]
  pair hx hy := by rw [hx, hy]
  collect {A} _ k v v' h := by rw [Vector.ext h]
  const _ := rfl

/-- Equal masks: nothing is said about the public parts. -/
def sameMasks (n : Nat) : MaskRel n n where
  rel x x' := ∀ i, x.l i = x'.l i
  map _ h i := by simp [h i]
  pair hx hy i := by simp [hx i, hy i]
  collect h i := by
    apply Vector.ext
    intro j hj
    simpa using h j hj i
  const _ _ := by simp

/-- Equal public parts, and equal shares of every party but `e`. -/
def except (e : Fin n) : MaskRel n n where
  rel x x' := x.h = x'.h ∧ ∀ i, i ≠ e → x.l i = x'.l i
  map _ h := ⟨by simp [h.1], fun i hi => by simp [h.2 i hi]⟩
  pair hx hy := ⟨by simp [hx.1, hy.1], fun i hi => by simp [hx.2 i hi, hy.2 i hi]⟩
  collect h := by
    refine ⟨Vector.ext fun j hj => ?_, fun i hi => Vector.ext fun j hj => ?_⟩
    · simpa using (h j hj).1
    · simpa using (h j hj).2 i hi
  const _ := ⟨rfl, fun _ _ => rfl⟩

/-- The second side lacks party `e`; what it has agrees. -/
def view (e : Fin (n + 1)) : MaskRel (n + 1) n where
  rel x x' := x.h = x'.h ∧ ∀ j, x.l (e.succAbove j) = x'.l j
  map _ h := ⟨by simp [h.1], fun j => by simp [h.2 j]⟩
  pair hx hy := ⟨by simp [hx.1, hy.1], fun j => by simp [hx.2 j, hy.2 j]⟩
  collect h := by
    refine ⟨Vector.ext fun j hj => ?_, fun i => Vector.ext fun j hj => ?_⟩
    · simpa using (h j hj).1
    · simpa using (h j hj).2 i
  const _ := ⟨rfl, fun _ => by simp⟩

end MaskRel

end BlindSig
