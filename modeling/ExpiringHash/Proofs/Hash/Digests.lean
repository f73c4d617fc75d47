import ExpiringHash.Container
import ExpiringHash.Proofs.Fields.Consistency
import Mathlib.Algebra.GroupWithZero.Nat
import Mathlib.Data.List.Nodup
import Mathlib.Data.List.Perm.Basic

/-!
# What the digest of a container depends on

Each record is a sequence of its own, its name and its value, and is hashed from a fresh start. The
hashes are combined by exclusive or, so the digest depends on the names with their values and on
nothing else: not on the order of the records, nor on their versions and expiries. What one field
contributes can be taken out again and exchanged for something else.
-/
namespace ExpiringHash

/-- Hashes combined by exclusive or. -/
def Digest.combine (hashes : List UInt64) : UInt64 := hashes.foldr (· ^^^ ·) 0

theorem Digest.combine_perm {hashes others : List UInt64} (h : hashes.Perm others) :
    combine hashes = combine others := h.foldr_op_eq

theorem Digest.combine_append (hashes others : List UInt64) :
    combine (hashes ++ others) = combine hashes ^^^ combine others := by
  induction hashes with
  | nil => exact (UInt64.zero_xor).symm
  | cons hash hashes ih =>
    change hash ^^^ combine (hashes ++ others) = hash ^^^ combine hashes ^^^ combine others
    rw [ih, UInt64.xor_assoc]

/-- Combining what is there once more takes it out. -/
theorem Digest.xor_exchange (old new rest : UInt64) :
    new ^^^ rest = old ^^^ rest ^^^ old ^^^ new := by
  rw [UInt64.xor_comm old rest, UInt64.xor_assoc rest, UInt64.xor_self, UInt64.xor_zero,
    UInt64.xor_comm]

/-- The digit of a number at each place, lowest place first. -/
theorem Word.littleEndian_eq_map (width n : Nat) :
    littleEndian width n = (List.range width).map fun place => (n / 256 ^ place).toUInt8 := by
  induction width generalizing n with
  | zero => rfl
  | succ width ih =>
    have hlow : (n % 256).toUInt8 = (n / 256 ^ 0).toUInt8 := by
      rw [Nat.pow_zero, Nat.div_one]
      exact UInt8.toNat_inj.mp (Nat.mod_mod n 256)
    have hrest (place : Nat) : n / 256 / 256 ^ place = n / 256 ^ (place + 1) := by
      rw [Nat.div_div_eq_div_mul, Nat.pow_succ']
    rw [littleEndian, ih, List.range_succ_eq_map, List.map_cons, List.map_map, hlow]
    exact congrArg _ (List.map_congr_left fun place _ => congrArg Nat.toUInt8 (hrest place))

namespace Fields

variable {f g : Fields} {field value : Bytes} {rows : List (Bytes × Record)}

/-- A length in eight bytes, the lowest first. -/
def lengthBytes (bs : Bytes) : Bytes :=
  (List.range 8).map fun place => (bs.length / 256 ^ place).toUInt8

/-- The hash of a name and a value, each after its length. -/
def pairHash (pair : Bytes × Bytes) : UInt64 :=
  Sip.hash (lengthBytes pair.1 ++ pair.1 ++ (lengthBytes pair.2 ++ pair.2))

/-- What a digest takes in of a byte string is its length and its bytes. -/
theorem lengthFirst_eq (bs : Bytes) : Sip.lengthFirst bs = lengthBytes bs ++ bs :=
  congrArg (· ++ bs) (Word.littleEndian_eq_map 8 bs.length)

/-- A record's name and value. -/
def pair (row : Bytes × Record) : Bytes × Bytes := (row.1, row.2.value)

/-- The names with their values. -/
def pairs (f : Fields) : List (Bytes × Bytes) := f.records.toList.map pair

/-- The value of a field, expired or not. -/
def value? (f : Fields) (field : Bytes) : Option Bytes := (f.get? field).map (·.value)

/-- What a field contributes to the digest, 0 if it is absent. -/
def share (f : Fields) (field : Bytes) : UInt64 :=
  ((f.value? field).map fun value => pairHash (field, value)).getD 0

theorem mem_pairs_iff : (field, value) ∈ f.pairs ↔ f.value? field = some value := by
  rw [pairs, value?, List.mem_map, Option.map_eq_some_iff]
  constructor
  · rintro ⟨row, hrow, he⟩
    obtain ⟨rfl, rfl⟩ := Prod.mk.inj he
    exact ⟨row.2, SortedTable.get?_eq_some_iff.mpr hrow, rfl⟩
  · rintro ⟨r, hr, rfl⟩
    exact ⟨(field, r), SortedTable.mem_of_get? hr, rfl⟩

theorem nodup_pairs (f : Fields) : f.pairs.Nodup := by
  refine List.Nodup.of_map Prod.fst ?_
  rw [pairs, List.map_map]
  exact f.nodup_names

/-- Feeding records to a digest leaves nothing pending and combines their hashes with it. -/
theorem foldl_addSequence (rows : List (Bytes × Record)) (value : UInt64) :
    rows.foldl (fun d r => d.addSequence [r.1, r.2.value]) (Digest.mk [] value) =
      ⟨[], value ^^^ Digest.combine (rows.map fun r => pairHash (pair r))⟩ := by
  induction rows generalizing value with
  | nil => exact congrArg (Digest.mk []) UInt64.xor_zero.symm
  | cons row rows ih =>
    rw [List.foldl_cons, Digest.addSequence_eq, ih, UInt64.xor_assoc]
    simp only [List.flatMap_cons, List.flatMap_nil, List.append_nil, lengthFirst_eq]
    rfl

/-- The names with their values, apart from those of one field. -/
def pairsWithout (f : Fields) (field : Bytes) : List (Bytes × Bytes) :=
  f.pairs.filter fun pair => !decide (pair.1 = field)

/-- A field has one value or none. -/
theorem filter_pairs_perm (f : Fields) (field : Bytes) :
    (f.pairs.filter fun pair => decide (pair.1 = field)).Perm
      ((f.value? field).map fun value => (field, value)).toList := by
  have hnodup (o : Option (Bytes × Bytes)) : o.toList.Nodup := by cases o <;> simp
  refine (List.perm_ext_iff_of_nodup (f.nodup_pairs.filter _) (hnodup _)).mpr ?_
  rintro ⟨name, value⟩
  simp only [List.mem_filter, decide_eq_true_eq, Option.mem_toList, Option.map_eq_some_iff,
    Prod.mk.injEq, mem_pairs_iff]
  constructor
  · rintro ⟨hvalue, rfl⟩
    exact ⟨value, hvalue, rfl, rfl⟩
  · rintro ⟨_, hvalue, rfl, rfl⟩
    exact ⟨hvalue, rfl⟩

/-- What one field contributes stands apart from what the others do. -/
theorem combine_pairs (f : Fields) (field : Bytes) :
    Digest.combine (f.pairs.map pairHash) =
      f.share field ^^^ Digest.combine ((f.pairsWithout field).map pairHash) := by
  have hsplit := (List.filter_append_perm (fun pair => decide (pair.1 = field)) f.pairs).symm
  have hshare : Digest.combine
      (((f.value? field).map fun value => (field, value)).toList.map pairHash) = f.share field := by
    unfold share
    cases f.value? field with
    | none => rfl
    | some value => exact UInt64.xor_zero
  -- the record of the field comes first, the others after it
  rw [Digest.combine_perm (hsplit.map _), List.map_append, Digest.combine_append,
    Digest.combine_perm ((f.filter_pairs_perm field).map _), hshare]
  rfl

theorem pairsWithout_perm (h : ∀ other, other ≠ field → g.value? other = f.value? other) :
    (g.pairsWithout field).Perm (f.pairsWithout field) := by
  refine (List.perm_ext_iff_of_nodup (g.nodup_pairs.filter _) (f.nodup_pairs.filter _)).mpr ?_
  rintro ⟨name, value⟩
  simp only [List.mem_filter, Bool.not_eq_true', decide_eq_false_iff_not, mem_pairs_iff]
  refine and_congr_left fun hne => ?_
  rw [h name hne]

theorem value?_put (f : Fields) (field : Bytes) (r : Record) :
    (f.put field r).2.value? field = some r.value := by
  rw [value?, get?_put_self]
  rfl

theorem value?_put_of_ne {other : Bytes} (r : Record) (h : other ≠ field) :
    (f.put field r).2.value? other = f.value? other := by
  rw [value?, get?_put_of_ne h, value?]

theorem value?_remove (f : Fields) (field : Bytes) : (f.remove field).2.value? field = none := by
  rw [value?, get?_remove_self]
  rfl

theorem value?_remove_of_ne {other : Bytes} (h : other ≠ field) :
    (f.remove field).2.value? other = f.value? other := by
  rw [value?, get?_remove_of_ne h, value?]

theorem share_of_value? (h : f.value? field = some value) :
    f.share field = pairHash (field, value) := by
  rw [share, h]
  rfl

theorem share_of_absent (h : f.value? field = none) : f.share field = 0 := by
  rw [share, h]
  rfl

end Fields

namespace Container

variable {c c' : Container} {field : Bytes} {rows : List (Bytes × Record)}

/-- Whatever the order of the records, the digest combines the hashes of the names with their values,
and each starts afresh. -/
theorem feed_perm (h : rows.Perm c.fields.records.toList) :
    rows.foldl (fun d r => d.addSequence [r.1, r.2.value]) Digest.empty =
      ⟨[], Digest.combine (c.fields.pairs.map Fields.pairHash)⟩ := by
  rw [Digest.empty, Fields.foldl_addSequence, UInt64.zero_xor, Fields.pairs, List.map_map]
  exact congrArg (Digest.mk []) (Digest.combine_perm (h.map _))

theorem digest_eq_combine (c : Container) :
    c.digest = Digest.combine (c.fields.pairs.map Fields.pairHash) :=
  congrArg Digest.value (feed_perm (.refl _))

/-- The same names with the same values have the same digest. -/
theorem digest_congr (h : ∀ field, c.fields.value? field = c'.fields.value? field) :
    c.digest = c'.digest := by
  have hperm : c.fields.pairs.Perm c'.fields.pairs :=
    (List.perm_ext_iff_of_nodup c.fields.nodup_pairs c'.fields.nodup_pairs).mpr
      fun ⟨field, value⟩ => by rw [Fields.mem_pairs_iff, Fields.mem_pairs_iff, h]
  rw [digest_eq_combine, digest_eq_combine]
  exact Digest.combine_perm (hperm.map _)

/-- Containers that agree on all fields but one have digests that differ by what it contributes to
each. -/
theorem digest_of_agree
    (h : ∀ other, other ≠ field → c'.fields.value? other = c.fields.value? other) :
    c'.digest = c.digest ^^^ c.fields.share field ^^^ c'.fields.share field := by
  have hothers : Digest.combine ((c'.fields.pairsWithout field).map Fields.pairHash) =
      Digest.combine ((c.fields.pairsWithout field).map Fields.pairHash) :=
    Digest.combine_perm ((Fields.pairsWithout_perm h).map _)
  rw [digest_eq_combine, digest_eq_combine, Fields.combine_pairs c.fields field,
    Fields.combine_pairs c'.fields field, hothers]
  exact Digest.xor_exchange _ _ _

/-- What the digest of a container is made of. -/
structure DigestsPairs (c : Container) : Prop where
  /-- In whatever order the records are fed to a fresh digest, it combines their hashes, each of which
  starts afresh, and nothing is left pending. -/
  feed : ∀ rows : List (Bytes × Record), rows.Perm c.fields.records.toList →
    rows.foldl (fun d r => d.addSequence [r.1, r.2.value]) Digest.empty =
      ⟨[], Digest.combine (c.fields.pairs.map Fields.pairHash)⟩
  digest : c.digest = Digest.combine (c.fields.pairs.map Fields.pairHash)
  congr : ∀ c' : Container, (∀ field, c'.fields.value? field = c.fields.value? field) →
    c'.digest = c.digest
  /-- A container that agrees on all fields but one differs by what that one contributes. -/
  exchange : ∀ (c' : Container) (field : Bytes),
    (∀ other, other ≠ field → c'.fields.value? other = c.fields.value? other) →
    c'.digest = c.digest ^^^ c.fields.share field ^^^ c'.fields.share field
  put : ∀ field r, ({ c with fields := (c.fields.put field r).2 } : Container).digest =
    c.digest ^^^ c.fields.share field ^^^ Fields.pairHash (field, r.value)
  remove : ∀ field, ({ c with fields := (c.fields.remove field).2 } : Container).digest =
    c.digest ^^^ c.fields.share field

theorem digestsPairs (c : Container) : c.DigestsPairs where
  feed _ h := feed_perm h
  digest := c.digest_eq_combine
  congr _ h := digest_congr h
  exchange _ _ h := digest_of_agree h
  put field r := by
    rw [← Fields.share_of_value? (c.fields.value?_put field r)]
    exact digest_of_agree fun _ => Fields.value?_put_of_ne r
  remove field := by
    have hagree : ({ c with fields := (c.fields.remove field).2 } : Container).digest = _ :=
      digest_of_agree fun _ => Fields.value?_remove_of_ne
    rw [hagree, Fields.share_of_absent (c.fields.value?_remove field), UInt64.xor_zero]

end Container
end ExpiringHash
