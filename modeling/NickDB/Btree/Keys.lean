import NickDB.Btree.Model

/-!
# Keys

`btree_get_key_sep_size` takes a key for a string that ends with a null byte,
and `btree_default_cmp_keys` takes two keys for `len` bytes each.  The two fit
together if the null byte is compared as well: one byte more than the smaller of
the two sizes is enough to put the strings into the order of a dictionary.
-/

namespace NickDB

/-- The memory behind a pointer to a key, up to the end of the object that it
leads into; no object has more bytes than a signed size can count. -/
structure KeyMemory where
  bytes : List UInt8
  fits : bytes.length < 2 ^ 63

/-- The loop of `btree_get_key_sep_size`.  It is undefined where there is no
null byte before the end of the object. -/
def countBytes (length : ℤ) : List UInt8 → Option ℤ
  | [] => none
  | byte :: bytes =>
      if byte ≠ 0 then countBytes (length + 1) bytes else some length

/-- `btree_get_key_sep_size`; a null pointer gives `ERR_SET`. -/
def btreeGetKeySepSize (key : Option KeyMemory) : Option ℤ :=
  match key with
  | none => some (-1)
  | some key => countBytes 0 key.bytes

/-- `btree_default_cmp_keys`: the sign of its result. -/
def btreeDefaultCmpKeys (first second : Option KeyMemory) (len : UInt64) :
    Option Ordering :=
  if len = 0 then some .eq
  else
    match first, second with
    | some first, some second =>
        memcmp (sepBytes first.bytes len) (sepBytes second.bytes len)
    | _, _ => some .eq

/-- The count ends at the first null byte. -/
theorem countBytes_eq_some_iff {bytes : List UInt8} {start size : ℤ} :
    countBytes start bytes = some size ↔
      ∃ string rest, bytes = string ++ 0 :: rest ∧ 0 ∉ string ∧
        size = start + string.length := by
  induction bytes generalizing start with
  | nil => simp [countBytes]
  | cons byte bytes ih =>
      rw [countBytes]
      by_cases hzero : byte = 0
      · subst hzero
        rw [if_neg (not_not.mpr rfl), Option.some.injEq]
        constructor
        · rintro rfl
          exact ⟨[], bytes, rfl, List.not_mem_nil, by simp⟩
        · rintro ⟨string, rest, hbytes, hstring, rfl⟩
          cases string with
          | nil => simp
          | cons first string =>
              obtain ⟨rfl, -⟩ := List.cons_eq_cons.mp hbytes
              exact absurd List.mem_cons_self hstring
      · rw [if_pos hzero, ih]
        constructor
        · rintro ⟨string, rest, rfl, hstring, rfl⟩
          refine ⟨byte :: string, rest, rfl, ?_, ?_⟩
          · rw [List.mem_cons, not_or]
            exact ⟨Ne.symm hzero, hstring⟩
          · rw [List.length_cons, Nat.cast_succ]
            omega
        · rintro ⟨string, rest, hbytes, hstring, rfl⟩
          cases string with
          | nil =>
              obtain ⟨hbyte, -⟩ := List.cons_eq_cons.mp hbytes
              exact absurd hbyte hzero
          | cons first string =>
              obtain ⟨rfl, rfl⟩ := List.cons_eq_cons.mp hbytes
              refine ⟨string, rest, rfl, fun hmem => ?_, ?_⟩
              · exact hstring (List.mem_cons_of_mem byte hmem)
              · rw [List.length_cons, Nat.cast_succ]
                omega

theorem compare_byte (x y : UInt8) :
    compare x y = if x < y then .lt else if y < x then .gt else .eq := by
  have hcompare : compare x y = compareOfLessAndEq x y := rfl
  rw [hcompare, compareOfLessAndEq]
  by_cases hlt : x < y
  · rw [if_pos hlt, if_pos hlt]
  · rw [if_neg hlt, if_neg hlt]
    by_cases hgt : y < x
    · rw [if_pos hgt, if_neg (UInt8.ne_of_lt hgt).symm]
    · have hsame : x = y :=
        UInt8.le_antisymm (UInt8.not_lt.mp hgt) (UInt8.not_lt.mp hlt)
      rw [if_neg hgt, if_pos hsame]

/-- Comparing bytes goes on behind a byte that both have. -/
theorem compareBytes_cons (x y : UInt8) (first second : List UInt8) :
    compareBytes (x :: first) (y :: second) =
      (compare x y).then (compareBytes first second) := by
  rw [compareBytes, compare_byte]
  split
  next => rfl
  next => split <;> rfl

theorem compare_zero {byte : UInt8} (h : byte ≠ 0) : compare 0 byte = .lt := by
  rw [compare_byte, if_pos (UInt8.pos_iff_ne_zero.mpr h)]

/-- Two strings, with the null bytes behind them, are compared like words. -/
theorem compareBytes_strings {first second rest rest' : List UInt8}
    (hfirst : 0 ∉ first) (hsecond : 0 ∉ second) :
    compareBytes
        ((first ++ 0 :: rest).take (min first.length second.length + 1))
        ((second ++ 0 :: rest').take (min first.length second.length + 1)) =
      compare first second := by
  induction first generalizing second with
  | nil =>
      cases second with
      | nil => rfl
      | cons y second =>
          have hy : y ≠ 0 := fun heq => hsecond (heq ▸ List.mem_cons_self)
          simp [compareBytes_cons, compare_zero hy]
  | cons x first ih =>
      cases second with
      | nil =>
          have hx : x ≠ 0 := fun heq => hfirst (heq ▸ List.mem_cons_self)
          have hgt : compare x 0 = .gt :=
            Std.OrientedCmp.gt_of_lt (compare_zero hx)
          simp [compareBytes_cons, hgt]
      | cons y second =>
          have hrest := ih (fun h => hfirst (List.mem_cons_of_mem x h))
            fun h => hsecond (List.mem_cons_of_mem y h)
          simp [compareBytes_cons, hrest]

/-- The part of the memory that a size counts is a string without null bytes,
with a null byte behind it. -/
theorem exists_string {key : KeyMemory} {size : ℤ}
    (h : btreeGetKeySepSize (some key) = some size) :
    ∃ rest, key.bytes = key.bytes.take size.toNat ++ 0 :: rest ∧
      0 ∉ key.bytes.take size.toNat ∧
      (key.bytes.take size.toNat).length = size.toNat := by
  obtain ⟨string, rest, hbytes, hstring, hsize⟩ := countBytes_eq_some_iff.mp h
  have hcount : size.toNat = string.length := by omega
  have htake : key.bytes.take size.toNat = string := by
    rw [hbytes, hcount, List.take_left]
  rw [htake]
  exact ⟨rest, hbytes, hstring, hcount.symm⟩

/-- Where `btree_get_key_sep_size` returns for two keys, one byte more than the
smaller size is in both objects, and `btree_default_cmp_keys` over so many bytes
puts the keys in the order of their strings in a dictionary. -/
theorem default_cmp_keys_orders_strings {first second : KeyMemory}
    {size size' : ℤ} (hfirst : btreeGetKeySepSize (some first) = some size)
    (hsecond : btreeGetKeySepSize (some second) = some size') :
    btreeDefaultCmpKeys (some first) (some second)
        (UInt64.ofNat (min size.toNat size'.toNat + 1)) =
      some (compare (first.bytes.take size.toNat)
        (second.bytes.take size'.toNat)) := by
  obtain ⟨rest, hbytes, hstring, hlength⟩ := exists_string hfirst
  obtain ⟨rest', hbytes', hstring', hlength'⟩ := exists_string hsecond
  have hfits : size.toNat < first.bytes.length := by
    rw [hbytes, List.length_append, hlength, List.length_cons]
    omega
  have hfits' : size'.toNat < second.bytes.length := by
    rw [hbytes', List.length_append, hlength', List.length_cons]
    omega
  have hlen : (UInt64.ofNat (min size.toNat size'.toNat + 1)).toNat =
      min size.toNat size'.toNat + 1 := by
    have hsmall := first.fits
    rw [UInt64.toNat_ofNat']
    omega
  have hne : UInt64.ofNat (min size.toNat size'.toNat + 1) ≠ 0 := by
    intro hzero
    rw [hzero] at hlen
    cases hlen
  have hwords : compareBytes
      (first.bytes.take (min size.toNat size'.toNat + 1))
      (second.bytes.take (min size.toNat size'.toNat + 1)) =
        compare (first.bytes.take size.toNat)
          (second.bytes.take size'.toNat) := by
    have hstrings := @compareBytes_strings _ _ rest rest' hstring hstring'
    rwa [← hbytes, ← hbytes', hlength, hlength'] at hstrings
  rw [btreeDefaultCmpKeys, if_neg hne, sepBytes, sepBytes, hlen,
    if_pos (by omega), if_pos (by omega), memcmp, hwords]

/-- The key `ab` comes before the key `b`. -/
theorem default_cmp_keys_orders_strings_sample :
    btreeDefaultCmpKeys (some ⟨[97, 98, 0], by decide⟩)
      (some ⟨[98, 0, 97], by decide⟩) 2 = some .lt := by
  have hfirst : btreeGetKeySepSize (some ⟨[97, 98, 0], by decide⟩) = some 2 :=
    rfl
  have hsecond : btreeGetKeySepSize (some ⟨[98, 0, 97], by decide⟩) =
      some 1 := rfl
  exact default_cmp_keys_orders_strings hfirst hsecond

end NickDB
