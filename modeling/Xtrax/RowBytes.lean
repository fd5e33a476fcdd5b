import Xtrax.ChunkedMap
import Xtrax.Results

/-!
# Rows as bytes

Two rows of a batch are compared by the bytes of their entries: the leaves of the batch are checked
to have one length along the batch axis (`validateBatchLeaves`), and each gives for every row the
bytes of its entries in its own dtype (`leafRowBytes`).  The recipes lose nothing: two rows of one
leaf have the same bytes just when their entries are the same (`leafRowBytes_inj`).
-/

namespace Xtrax.RowBytes

open List ChunkedMap

abbrev Byte := Fin 256

instance neZeroByte : NeZero 256 := ⟨by decide⟩

/-- The number is that of the bits of an entry; `complex` has the bits of each of its halves. -/
inductive DType
  | bool
  | complex (name : String) (bits : Nat)
  | integer (name : String) (signed : Bool) (bits : Nat)
  | floating (name : String) (bits : Nat)
  | prngKey (name : String)
  | object
  | other (name : String) (bits : Nat)
  deriving DecidableEq

/-- The number of values of an entry; an entry is the number that its bits are. -/
def DType.card : DType → Nat
  | .bool => 2
  | .complex _ bits => 2 ^ bits * 2 ^ bits
  | .integer _ _ bits | .floating _ bits | .other _ bits => 2 ^ bits
  | .prngKey _ | .object => 1

instance : Dtypes DType Nat where
  zero _ := 0
  isExtended
    | .prngKey _ => true
    | _ => false

/-- An array whose entries are values of its dtype. -/
structure BatchArray extends Leaf DType Nat where
  lt_card : ∀ idx, array.get idx < dtype.card

/-- What is passed as a leaf: a `jax.Array`, an `np.ndarray` or something else, for which
`np.asarray` gives an array or a `ValueError`. -/
inductive BatchLeaf
  | device (a : BatchArray)
  | host (a : BatchArray)
  | untyped (asarray : Except String BatchArray)

/-- `DedupSynthesisUnsupportedError` and `ValueError`. -/
inductive BatchError
  | heterogeneous (leaf : Nat)
  | prngKey (leaf : Nat) (dtype : DType)
  | subbyteFloat (dtype : DType)
  | dtype (dtype : DType)
  | empty
  | asarray (message : String)
  | axisOutOfRange (axis : Int) (ndim : Nat)
  | noRows (axis : Int)
  | batchDimension (leaf found expected : Nat)
  deriving DecidableEq

/-- `isinstance(leaf, np.ndarray)` or a `jax.Array`. -/
structure TypedLeaf where
  onHost : Bool
  array : BatchArray

/-! ### Checks of a batch -/

/-- One leaf of `_validate_batch_leaves`: an array of numbers. -/
def typedLeaf (i : Nat) (leaf : BatchLeaf) : Except BatchError TypedLeaf := do
  let arr ← match leaf with
    | .device a => pure (TypedLeaf.mk false a)
    | .host a => if a.dtype = .object then .error (.heterogeneous i) else pure ⟨true, a⟩
    | .untyped (.ok a) => if a.dtype = .object then .error (.heterogeneous i) else pure ⟨true, a⟩
    | .untyped (.error message) =>
      if "inhomogeneous".toList <:+: message.toList then .error (.heterogeneous i)
      else .error (.asarray message)
  match arr.array.dtype with
  | .prngKey name => .error (.prngKey i (.prngKey name))
  | _ => pure arr

/-- The leaf has `n` rows along the axis. -/
def checkLength (axis : Int) (n i : Nat) (leaf : TypedLeaf) : Except BatchError Unit :=
  let shape := leaf.array.array.shape
  if axis < 0 ∨ (shape.length : Int) ≤ axis then .error (.axisOutOfRange axis shape.length)
  else if shape.getD axis.toNat 0 ≠ n then .error (.batchDimension i (shape.getD axis.toNat 0) n)
  else .ok ()

def validateBatchLeaves (batchLeaves : List BatchLeaf) (axis : Int) :
    Except BatchError (List TypedLeaf × Nat) := do
  let leaves ← batchLeaves.zipIdx.mapM fun (leaf, i) => typedLeaf i leaf
  match leaves with
  | [] => .error .empty
  | first :: _ =>
    let shape := first.array.array.shape
    if axis < 0 ∨ (shape.length : Int) ≤ axis then .error (.axisOutOfRange axis shape.length)
    else
      let n := shape.getD axis.toNat 0
      if n = 0 then .error (.noRows axis)
      else
        leaves.zipIdx.forM fun (leaf, i) => checkLength axis n i leaf
        pure (leaves, n)

theorem checkLength_ok {axis : Int} {n i : Nat} {leaf : TypedLeaf}
    (h : checkLength axis n i leaf = .ok ()) : 0 ≤ axis ∧ axis < leaf.array.array.shape.length ∧
      leaf.array.array.shape.getD axis.toNat 0 = n := by
  unfold checkLength at h
  dsimp only at h
  split at h
  · cases h
  rename_i haxis
  split at h
  · cases h
  rename_i hlen
  exact ⟨by omega, by omega, not_not.mp hlen⟩

theorem validateBatchLeaves_ok {batchLeaves : List BatchLeaf} {axis : Int} {n : Nat}
    {leaves : List TypedLeaf} (h : validateBatchLeaves batchLeaves axis = .ok (leaves, n)) :
    leaves ≠ [] ∧ n ≠ 0 ∧ ∀ leaf ∈ leaves, 0 ≤ axis ∧ axis < leaf.array.array.shape.length ∧
      leaf.array.array.shape.getD axis.toNat 0 = n := by
  obtain ⟨typed, -, h⟩ := Results.bind_eq_ok.mp h
  cases typed with
  | nil => cases h
  | cons first rest =>
    dsimp only at h
    split at h
    · cases h
    split at h
    · cases h
    rename_i hn
    obtain ⟨⟨⟩, hchecks, h⟩ := Results.bind_eq_ok.mp h
    cases h
    refine ⟨cons_ne_nil _ _, hn, ?_⟩
    intro leaf hleaf
    obtain ⟨i, hi⟩ := mem_iff_getElem?.mp hleaf
    have hzip : (leaf, i) ∈ (first :: rest).zipIdx := mk_mem_zipIdx_iff_getElem?.mpr hi
    exact checkLength_ok (Results.forM_eq_ok hchecks _ hzip)

/-! ### Bytes -/

/-- The bytes of a number, the lowest first. -/
def littleEndian : Nat → Nat → List Byte
  | 0, _ => []
  | width + 1, n => Fin.ofNat 256 n :: littleEndian width (n / 256)

/-- The bytes that hold these bits. -/
def itemsize (bits : Nat) : Nat := (bits + 7) / 8

/-- `_row_byte_kind`, with the bits that the recipes need. -/
inductive Kind
  | bool
  | complex (bits : Nat)
  | subbyteSigned (bits : Nat)
  | subbyteUnsigned (bits : Nat)
  | plain (bits : Nat)

def rowByteKind : DType → Except BatchError Kind
  | .bool => .ok .bool
  | .complex _ bits => .ok (.complex bits)
  | .integer _ signed bits =>
    if bits < 8 then .ok (if signed then .subbyteSigned bits else .subbyteUnsigned bits)
    else .ok (.plain bits)
  | .floating name bits =>
    if bits < 8 then .error (.subbyteFloat (.floating name bits)) else .ok (.plain bits)
  | d => .error (.dtype d)

/-- `astype(int8)`: the sign bit is extended. -/
def astypeInt8 (bits n : Nat) : Nat := if n < 2 ^ (bits - 1) then n else n + 2 ^ 8 - 2 ^ bits

/-- The native bytes of one entry, after the sub-byte integers are widened. -/
def hostBytes : Kind → Nat → List Byte
  | .bool, n | .subbyteUnsigned _, n => littleEndian 1 n
  | .complex bits, n =>
    littleEndian (itemsize bits) (n % 2 ^ bits) ++ littleEndian (itemsize bits) (n / 2 ^ bits)
  | .subbyteSigned bits, n => littleEndian 1 (astypeInt8 bits n)
  | .plain bits, n => littleEndian (itemsize bits) n

def hostLeafRowBytes (kind : Kind) (row : List Nat) : List Byte := row.flatMap (hostBytes kind)

def deviceBytesPlain (width : Nat) (row : List Nat) : List Byte := row.flatMap (littleEndian width)

def deviceBytesBool (row : List Nat) : List Byte := deviceBytesPlain 1 row

/-- `_device_bytes_complex`: the real halves of the row, then the imaginary ones. -/
def deviceBytesComplex (bits : Nat) (row : List Nat) : List Byte :=
  deviceBytesPlain (itemsize bits) (row.map (· % 2 ^ bits)) ++
    deviceBytesPlain (itemsize bits) (row.map (· / 2 ^ bits))

def deviceBytesSubbyteSigned (bits : Nat) (row : List Nat) : List Byte :=
  deviceBytesPlain 1 (row.map (astypeInt8 bits))

def deviceBytesSubbyteUnsigned (row : List Nat) : List Byte := deviceBytesPlain 1 row

/-- The recipe of a kind on the device. -/
def deviceLeafRowBytes : Kind → List Nat → List Byte
  | .bool, row => deviceBytesBool row
  | .complex bits, row => deviceBytesComplex bits row
  | .subbyteSigned bits, row => deviceBytesSubbyteSigned bits row
  | .subbyteUnsigned _, row => deviceBytesSubbyteUnsigned row
  | .plain bits, row => deviceBytesPlain (itemsize bits) row

def TypedLeaf.row (leaf : TypedLeaf) (axis i : Nat) : NdArray Nat :=
  (leaf.array.array.moveToFront axis).row i

def leafRowBytes (axis : Nat) (leaf : TypedLeaf) : Except BatchError (Nat → List Byte) := do
  let kind ← rowByteKind leaf.array.dtype
  pure fun i =>
    let row := (leaf.row axis i).entries
    if leaf.onHost then hostLeafRowBytes kind row else deviceLeafRowBytes kind row

/-! ### The recipes lose nothing -/

theorem length_littleEndian (width n : Nat) : (littleEndian width n).length = width := by
  induction width generalizing n with
  | zero => rfl
  | succ width ih => rw [littleEndian, length_cons, ih]

theorem littleEndian_inj {width n m : Nat} (hn : n < 256 ^ width) (hm : m < 256 ^ width)
    (h : littleEndian width n = littleEndian width m) : n = m := by
  induction width generalizing n m with
  | zero => omega
  | succ width ih =>
    obtain ⟨hlow, hrest⟩ := cons.inj h
    have hmod : n % 256 = m % 256 := congrArg Fin.val hlow
    have hdiv : n / 256 = m / 256 := by
      rw [pow_succ] at hn hm
      apply ih _ _ hrest
      · exact Nat.div_lt_of_lt_mul (by omega)
      · exact Nat.div_lt_of_lt_mul (by omega)
    omega

theorem flatMap_inj {f : Nat → List Byte} {width bound : Nat} (hlen : ∀ n, (f n).length = width)
    (hinj : ∀ n < bound, ∀ m < bound, f n = f m → n = m) {l l' : List Nat}
    (hl : ∀ n ∈ l, n < bound) (hl' : ∀ n ∈ l', n < bound) (hlength : l.length = l'.length)
    (h : l.flatMap f = l'.flatMap f) : l = l' := by
  induction l generalizing l' with
  | nil => exact (eq_nil_of_length_eq_zero hlength.symm).symm
  | cons n l ih =>
    cases l' with
    | nil => cases hlength
    | cons m l' =>
      rw [flatMap_cons, flatMap_cons] at h
      obtain ⟨hfirst, hrest⟩ := append_inj h ((hlen n).trans (hlen m).symm)
      have hnm : n = m := hinj n (hl n mem_cons_self) m (hl' m mem_cons_self) hfirst
      have hll : l = l' := by
        apply ih
        · exact fun x hx => hl x (mem_cons_of_mem _ hx)
        · exact fun x hx => hl' x (mem_cons_of_mem _ hx)
        · exact Nat.succ.inj hlength
        · exact hrest
      rw [hnm, hll]

theorem length_flatMap {f : Nat → List Byte} {width : Nat} (hlen : ∀ n, (f n).length = width)
    (l : List Nat) : (l.flatMap f).length = l.length * width := by
  induction l with
  | nil => rw [flatMap_nil, length_nil, length_nil, Nat.zero_mul]
  | cons n l ih => rw [flatMap_cons, length_append, hlen, ih, length_cons,
      Nat.succ_mul, Nat.add_comm]

theorem two_pow_le (bits : Nat) : 2 ^ bits ≤ 256 ^ itemsize bits := by
  have hbits : bits ≤ 8 * itemsize bits := by
    unfold itemsize
    omega
  calc 2 ^ bits ≤ 2 ^ (8 * itemsize bits) := Nat.pow_le_pow_right (by decide) hbits
    _ = 256 ^ itemsize bits := Nat.pow_mul 2 8 _

/-- The sub-byte kinds have fewer than eight bits. -/
def Kind.Fits : Kind → Prop
  | .subbyteSigned bits | .subbyteUnsigned bits => bits < 8
  | _ => True

/-- The number of values of an entry of the kind. -/
def Kind.card : Kind → Nat
  | .bool => 2
  | .complex bits => 2 ^ bits * 2 ^ bits
  | .subbyteSigned bits | .subbyteUnsigned bits | .plain bits => 2 ^ bits

theorem rowByteKind_ok {d : DType} {kind : Kind} (h : rowByteKind d = .ok kind) :
    kind.Fits ∧ kind.card = d.card := by
  cases d with
  | bool =>
    cases h
    exact ⟨trivial, rfl⟩
  | complex name bits =>
    cases h
    exact ⟨trivial, rfl⟩
  | integer name signed bits =>
    rw [rowByteKind] at h
    by_cases hbits : bits < 8
    · rw [if_pos hbits] at h
      cases signed <;> cases h <;> exact ⟨hbits, rfl⟩
    · rw [if_neg hbits] at h
      cases h
      exact ⟨trivial, rfl⟩
  | floating name bits =>
    rw [rowByteKind] at h
    by_cases hbits : bits < 8
    · rw [if_pos hbits] at h
      cases h
    · rw [if_neg hbits] at h
      cases h
      exact ⟨trivial, rfl⟩
  | prngKey name => cases h
  | object => cases h
  | other name bits => cases h

theorem astypeInt8_lt {bits n : Nat} (hbits : bits < 8) (hn : n < 2 ^ bits) :
    astypeInt8 bits n < 256 := by
  have hle : 2 ^ bits ≤ 2 ^ 7 := Nat.pow_le_pow_right (by decide) (by omega)
  unfold astypeInt8
  split <;> omega

theorem astypeInt8_inj {bits n m : Nat} (hbits : bits < 8)
    (h : astypeInt8 bits n = astypeInt8 bits m) : n = m := by
  have hle : 2 ^ bits ≤ 2 ^ 7 := Nat.pow_le_pow_right (by decide) (by omega)
  have hhalf : 2 ^ (bits - 1) ≤ 2 ^ 7 := Nat.pow_le_pow_right (by decide) (by omega)
  unfold astypeInt8 at h
  split at h <;> split at h <;> omega

/-- The width of an entry. -/
def Kind.width : Kind → Nat
  | .bool | .subbyteSigned _ | .subbyteUnsigned _ => 1
  | .complex bits => itemsize bits + itemsize bits
  | .plain bits => itemsize bits

theorem length_hostBytes (kind : Kind) (n : Nat) : (hostBytes kind n).length = kind.width := by
  cases kind with
  | complex bits =>
    rw [hostBytes, length_append, length_littleEndian, length_littleEndian]
    rfl
  | _ => exact length_littleEndian _ _

theorem hostBytes_inj {kind : Kind} (hfits : kind.Fits) (n : Nat) (hn : n < kind.card) (m : Nat)
    (hm : m < kind.card) (h : hostBytes kind n = hostBytes kind m) : n = m := by
  have hbyte : ∀ {bits x : Nat}, bits < 8 → x < 2 ^ bits → x < 256 ^ 1 := fun hbits hx =>
    hx.trans_le (Nat.pow_le_pow_right (n := 2) (by decide) (Nat.le_of_lt hbits))
  cases kind with
  | bool =>
    have htwo : (2 : Nat) ≤ 256 ^ 1 := by decide
    exact littleEndian_inj (hn.trans_le htwo) (hm.trans_le htwo) h
  | complex bits =>
    have hpos : 0 < 2 ^ bits := Nat.two_pow_pos bits
    have hlow : ∀ x, x % 2 ^ bits < 256 ^ itemsize bits := fun x =>
      (Nat.mod_lt x hpos).trans_le (two_pow_le bits)
    have hhigh : ∀ x, x < 2 ^ bits * 2 ^ bits → x / 2 ^ bits < 256 ^ itemsize bits := fun x hx =>
      (Nat.div_lt_of_lt_mul hx).trans_le (two_pow_le bits)
    obtain ⟨hre, him⟩ := append_inj h
      ((length_littleEndian _ _).trans (length_littleEndian _ _).symm)
    exact Nat.ext_div_mod (littleEndian_inj (hhigh n hn) (hhigh m hm) him)
      (littleEndian_inj (hlow n) (hlow m) hre)
  | subbyteSigned bits =>
    have hext := littleEndian_inj (astypeInt8_lt hfits hn) (astypeInt8_lt hfits hm) h
    exact astypeInt8_inj hfits hext
  | subbyteUnsigned bits => exact littleEndian_inj (hbyte hfits hn) (hbyte hfits hm) h
  | plain bits =>
    exact littleEndian_inj (hn.trans_le (two_pow_le bits)) (hm.trans_le (two_pow_le bits)) h

theorem deviceLeafRowBytes_eq {kind : Kind} (h : ∀ bits, kind ≠ .complex bits) (row : List Nat) :
    deviceLeafRowBytes kind row = hostLeafRowBytes kind row := by
  cases kind with
  | complex bits => exact absurd rfl (h bits)
  | subbyteSigned bits =>
    show (row.map _).flatMap _ = row.flatMap _
    rw [flatMap_map]
    rfl
  | _ => rfl

theorem length_deviceLeafRowBytes (kind : Kind) (row : List Nat) :
    (deviceLeafRowBytes kind row).length = row.length * kind.width := by
  by_cases hcomplex : ∃ bits, kind = .complex bits
  · obtain ⟨bits, rfl⟩ := hcomplex
    show (deviceBytesPlain _ _ ++ deviceBytesPlain _ _).length = _
    rw [length_append, deviceBytesPlain, deviceBytesPlain,
      length_flatMap (length_littleEndian _), length_flatMap (length_littleEndian _),
      length_map, length_map, Kind.width, Nat.mul_add]
  · rw [deviceLeafRowBytes_eq fun bits h => hcomplex ⟨bits, h⟩]
    exact length_flatMap (length_hostBytes kind) row

theorem deviceLeafRowBytes_inj {kind : Kind} (hfits : kind.Fits) {l l' : List Nat}
    (hl : ∀ n ∈ l, n < kind.card) (hl' : ∀ n ∈ l', n < kind.card) (hlength : l.length = l'.length)
    (h : deviceLeafRowBytes kind l = deviceLeafRowBytes kind l') : l = l' := by
  by_cases hcomplex : ∃ bits, kind = .complex bits
  · obtain ⟨bits, rfl⟩ := hcomplex
    have hpos : 0 < 2 ^ bits := Nat.two_pow_pos bits
    have hinj : ∀ n < 2 ^ bits, ∀ m < 2 ^ bits,
        littleEndian (itemsize bits) n = littleEndian (itemsize bits) m → n = m :=
      fun n hn m hm => littleEndian_inj (hn.trans_le (two_pow_le bits))
        (hm.trans_le (two_pow_le bits))
    have hparts : ∀ f : Nat → Nat, (∀ n < 2 ^ bits * 2 ^ bits, f n < 2 ^ bits) →
        deviceBytesPlain (itemsize bits) (l.map f) = deviceBytesPlain (itemsize bits) (l'.map f) →
        l.map f = l'.map f := by
      intro f hf
      apply flatMap_inj (length_littleEndian _) hinj
      · exact forall_mem_map.mpr fun n hn => hf n (hl n hn)
      · exact forall_mem_map.mpr fun n hn => hf n (hl' n hn)
      · rw [length_map, length_map, hlength]
    obtain ⟨hre, him⟩ := append_inj h (by
      rw [deviceBytesPlain, deviceBytesPlain, length_flatMap (length_littleEndian _),
        length_flatMap (length_littleEndian _), length_map, length_map, hlength])
    have hmod := hparts (· % 2 ^ bits) (fun n _ => Nat.mod_lt n hpos) hre
    have hdiv := hparts (· / 2 ^ bits) (fun n hn => Nat.div_lt_of_lt_mul hn) him
    -- a number is given by its halves
    refine ext_getElem hlength fun k hk hk' => ?_
    have hget : ∀ {g : Nat → Nat}, l.map g = l'.map g → g l[k] = g l'[k] := by
      intro g h
      have hget := getElem_of_eq h (by rw [length_map]; exact hk)
      rwa [getElem_map, getElem_map] at hget
    exact Nat.ext_div_mod (hget hdiv) (hget hmod)
  · rw [deviceLeafRowBytes_eq fun bits h => hcomplex ⟨bits, h⟩,
      deviceLeafRowBytes_eq fun bits h => hcomplex ⟨bits, h⟩] at h
    exact flatMap_inj (length_hostBytes kind) (hostBytes_inj hfits) hl hl' hlength h

section

variable {axis : Nat} {leaf : TypedLeaf} {block : Nat → List Byte}

theorem row_shape (leaf : TypedLeaf) (axis i j : Nat) :
    (leaf.row axis i).shape = (leaf.row axis j).shape := rfl

theorem leafRowBytes_ok (h : leafRowBytes axis leaf = .ok block) :
    ∃ kind, rowByteKind leaf.array.dtype = .ok kind ∧ ∀ i, block i =
      if leaf.onHost then hostLeafRowBytes kind (leaf.row axis i).entries
      else deviceLeafRowBytes kind (leaf.row axis i).entries := by
  unfold leafRowBytes at h
  cases hkind : rowByteKind leaf.array.dtype with
  | error e =>
    rw [hkind] at h
    cases h
  | ok kind =>
    rw [hkind] at h
    cases h
    exact ⟨kind, rfl, fun _ => rfl⟩

theorem length_leafRowBytes (h : leafRowBytes axis leaf = .ok block) (i j : Nat) :
    (block i).length = (block j).length := by
  obtain ⟨kind, -, hblock⟩ := leafRowBytes_ok h
  have hlength := NdArray.length_entries (row_shape leaf axis i j)
  rw [hblock, hblock]
  cases leaf.onHost with
  | true =>
    show (flatMap _ _).length = (flatMap _ _).length
    rw [length_flatMap (length_hostBytes kind), length_flatMap (length_hostBytes kind), hlength]
  | false =>
    show (deviceLeafRowBytes _ _).length = (deviceLeafRowBytes _ _).length
    rw [length_deviceLeafRowBytes, length_deviceLeafRowBytes, hlength]

theorem leafRowBytes_inj (h : leafRowBytes axis leaf = .ok block) (i j : Nat) :
    block i = block j ↔ (leaf.row axis i).Same (leaf.row axis j) := by
  obtain ⟨kind, hkind, hblock⟩ := leafRowBytes_ok h
  obtain ⟨hfits, hcard⟩ := rowByteKind_ok hkind
  have hshape := row_shape leaf axis i j
  have hlt : ∀ i, ∀ n ∈ (leaf.row axis i).entries, n < kind.card := by
    intro i n hn
    obtain ⟨idx, -, rfl⟩ := mem_map.mp hn
    rw [hcard]
    exact leaf.array.lt_card _
  rw [NdArray.same_iff_entries hshape, hblock, hblock]
  constructor
  · intro heq
    have hlength := NdArray.length_entries hshape
    cases honHost : leaf.onHost with
    | true =>
      rw [honHost] at heq
      exact flatMap_inj (length_hostBytes kind) (hostBytes_inj hfits) (hlt i) (hlt j) hlength heq
    | false =>
      rw [honHost] at heq
      exact deviceLeafRowBytes_inj hfits (hlt i) (hlt j) hlength heq
  · intro heq
    rw [heq]

end

end Xtrax.RowBytes
