/-
# Byte strings

Numbers in little-endian order, and strings of fields of known sizes.  A byte is a character below
256.
-/
import Mathlib

namespace Bytes

open List

/-! ## Numbers -/

/-- The last `w` digits of `n` to the base 256, the lowest first. -/
def littleEndian : ℕ → ℕ → List Char
  | 0, _ => []
  | w + 1, n => Char.ofNat (n % 256) :: littleEndian w (n / 256)

def ofLittleEndian : List Char → ℕ
  | [] => 0
  | c :: cs => c.toNat % 256 + 256 * ofLittleEndian cs

@[simp]
theorem length_littleEndian (w n : ℕ) : (littleEndian w n).length = w := by
  induction w generalizing n with
  | zero => rfl
  | succ w ih => rw [littleEndian, length_cons, ih]

variable {n : ℕ} {data bytes : List α}

theorem toNat_ofNat_of_lt (h : n < 256) : (Char.ofNat n).toNat = n := by
  rw [Char.toNat_ofNat, if_pos (.inl (by omega))]

@[simp]
theorem ofLittleEndian_littleEndian (w n : ℕ) :
    ofLittleEndian (littleEndian w n) = n % 256 ^ w := by
  induction w generalizing n with
  | zero => simp [littleEndian, ofLittleEndian, Nat.mod_one]
  | succ w ih =>
    have hlt : n % 256 < 256 := Nat.mod_lt _ (by decide)
    rw [littleEndian, ofLittleEndian, ih, toNat_ofNat_of_lt hlt, Nat.mod_mod, pow_succ',
      Nat.mod_mul]

theorem ofNat_ofLittleEndian {w : ℕ} (h : 256 ^ w = 2 ^ n) (value : BitVec n) :
    BitVec.ofNat n (ofLittleEndian ((littleEndian w value.toNat).take w)) = value := by
  rw [take_of_length_le (length_littleEndian _ _).le, ofLittleEndian_littleEndian, h,
    Nat.mod_eq_of_lt value.isLt, BitVec.ofNat_toNat, BitVec.setWidth_eq]

/-! ## Fields -/

section Lists

variable {α β : Type} {f : α → Option β} {l : List α}

theorem mapM_of_forall {g : α → β} (h : ∀ a ∈ l, f a = some (g a)) : l.mapM f = some (l.map g) := by
  induction l with
  | nil => rfl
  | cons a l ih =>
    rw [mapM_cons, h a mem_cons_self, ih fun a ha => h a (mem_cons_of_mem _ ha)]
    rfl

variable {bs : List β}

theorem forall₂_of_mapM (h : l.mapM f = some bs) : Forall₂ (fun a b => f a = some b) l bs := by
  induction l generalizing bs with
  | nil =>
    cases h
    exact .nil
  | cons a l ih =>
    rw [mapM_cons] at h
    obtain ⟨b, hb, h⟩ := Option.bind_eq_some_iff.mp h
    obtain ⟨bs', hbs', ⟨⟩⟩ := Option.bind_eq_some_iff.mp h
    exact .cons hb (ih hbs')

theorem exists_of_forall₂ {R : α → β → Prop} (h : Forall₂ R l bs) {b : β} (hb : b ∈ bs) :
    ∃ a ∈ l, R a b := by
  induction h with
  | nil => cases hb
  | cons hab _ ih =>
    rcases mem_cons.mp hb with rfl | hb
    · exact ⟨_, mem_cons_self, hab⟩
    · obtain ⟨a, ha, hab⟩ := ih hb
      exact ⟨a, mem_cons_of_mem _ ha, hab⟩

theorem length_of_mapM (h : l.mapM f = some bs) : bs.length = l.length :=
  (forall₂_of_mapM h).length_eq.symm

theorem forall_of_mapM (h : l.mapM f = some bs) : ∀ a ∈ l, (f a).isSome := by
  intro a ha
  obtain ⟨b, -, hb⟩ := exists_of_forall₂ (forall₂_of_mapM h).flip ha
  exact Option.isSome_iff_exists.mpr ⟨b, hb⟩

theorem exists_of_mem_mapM (h : l.mapM f = some bs) {b : β} (hb : b ∈ bs) : ∃ a ∈ l, f a = some b :=
  exists_of_forall₂ (forall₂_of_mapM h) hb

end Lists

variable {α : Type*}

/-- The first `n` characters, if there are as many. -/
def readBytes (n : ℕ) (data : List α) : Option (List α) :=
  if n ≤ data.length then some (data.take n) else none

/-- Replace the characters from the offset on; an offset past the end is an error. -/
def replaceAt (offset : ℕ) (bytes data : List α) : Option (List α) :=
  if offset ≤ data.length then
    some (data.take offset ++ bytes ++ data.drop (offset + bytes.length))
  else none

theorem length_of_readBytes (h : readBytes n data = some bytes) : bytes.length = n := by
  rw [readBytes] at h
  split_ifs at h with hn
  cases h
  rw [length_take, Nat.min_eq_left hn]

theorem readBytes_append (h : bytes.length = n) : readBytes n (bytes ++ data) = some bytes := by
  rw [readBytes, if_pos (by rw [length_append]; omega), take_append_of_le_length h.ge,
    take_of_length_le h.le]

/-- The place of a field in the string of all fields. -/
theorem flatten_eq_append (fields : List (List α)) (i : ℕ) (hi : i < fields.length) :
    fields.flatten = (fields.take i).flatten ++ (fields[i] ++ (fields.drop (i + 1)).flatten) := by
  conv_lhs => rw [← take_append_drop i fields, drop_eq_getElem_cons hi]
  rw [flatten_append, flatten_cons]

theorem readBytes_flatten {fields : List (List α)} {i : ℕ} (hi : i < fields.length) {n offset : ℕ}
    (hn : fields[i].length = n) (hoffset : (fields.take i).flatten.length = offset) (rest : List α) :
    readBytes n ((fields.flatten ++ rest).drop offset) = some fields[i] := by
  rw [flatten_eq_append fields i hi, append_assoc, drop_left' hoffset, append_assoc,
    readBytes_append hn]

theorem replaceAt_flatten {fields : List (List α)} {i : ℕ} (hi : i < fields.length) {offset : ℕ}
    (hoffset : (fields.take i).flatten.length = offset) {bytes : List α}
    (hbytes : bytes.length = fields[i].length) :
    replaceAt offset bytes fields.flatten = some (fields.set i bytes).flatten := by
  have hle : offset ≤ fields.flatten.length := by
    rw [flatten_eq_append fields i hi, length_append]
    omega
  rw [replaceAt, if_pos hle, set_eq_take_append_cons_drop, if_pos hi, flatten_append,
    flatten_cons, flatten_eq_append fields i hi, take_left' hoffset, ← drop_drop,
    drop_left' hoffset, drop_left' hbytes.symm, append_assoc]

end Bytes
