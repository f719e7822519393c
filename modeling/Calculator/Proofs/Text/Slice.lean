import Calculator.Proofs.Token.Boundary

/-!
Slices of a text and of its bytes.

A text can be cut behind a number of bytes if it has as many and the cut does not go through a
character. `splitAt?` has no answer elsewhere, so a slice that has one is in bounds and between two
characters. The bytes of a text can be cut anywhere; a byte below 128 among them is a character.
-/

namespace Calculator

/-- The parts of a text in front of a number of bytes and behind them. -/
def splitAt? : Nat → List Char → Option (List Char × List Char)
  | 0, text => some ([], text)
  | _ + 1, [] => none
  | count + 1, c :: text =>
    if c.utf8Size ≤ count + 1 then
      (splitAt? (count + 1 - c.utf8Size) text).map fun (front, rest) => (c :: front, rest)
    else none

section Split

variable {count : Nat} {text front rest : List Char}

theorem byteCount_eq_zero_iff : byteCount text = 0 ↔ text = [] := by
  cases text with
  | nil => exact iff_of_true rfl rfl
  | cons c text =>
      have hpos := c.utf8Size_pos
      refine iff_of_false ?_ (List.cons_ne_nil c text)
      rw [byteCount_cons]
      omega

theorem splitAt?_append (front rest : List Char) :
    splitAt? (byteCount front) (front ++ rest) = some (front, rest) := by
  induction front with
  | nil => rw [byteCount, List.nil_append, splitAt?]
  | cons c front ih =>
      obtain ⟨size, hsize⟩ := Nat.exists_eq_succ_of_ne_zero (Nat.ne_of_gt c.utf8Size_pos)
      have hcount : byteCount (c :: front) = size + byteCount front + 1 := by
        rw [byteCount_cons, hsize, Nat.succ_add]
      rw [hcount, List.cons_append, splitAt?, if_pos (by omega),
        show size + byteCount front + 1 - c.utf8Size = byteCount front by omega, ih]
      rfl

theorem splitAt?_eq_some_iff :
    splitAt? count text = some (front, rest) ↔ front ++ rest = text ∧ byteCount front = count := by
  refine ⟨fun h => ?_, ?_⟩
  · fun_induction splitAt? count text generalizing front with
    | case1 text =>
        obtain ⟨rfl, rfl⟩ := Prod.mk.inj (Option.some.inj h)
        exact ⟨rfl, rfl⟩
    | case2 | case4 => simp at h
    | case3 count c text hsize ih =>
        obtain ⟨⟨before, after⟩, hsplit, heq⟩ := Option.map_eq_some_iff.mp h
        obtain ⟨rfl, rfl⟩ := Prod.mk.inj heq
        obtain ⟨rfl, hcount⟩ := ih hsplit
        refine ⟨rfl, ?_⟩
        rw [byteCount_cons, hcount, Nat.add_sub_cancel' hsize]
  · rintro ⟨rfl, rfl⟩
    exact splitAt?_append front rest

/-- A text can be cut at the positions that are valid in it as a string. -/
theorem isSome_splitAt?_iff :
    (splitAt? count text).isSome ↔ String.Pos.Raw.IsValid (String.ofList text) ⟨count⟩ := by
  rw [Option.isSome_iff_exists, String.Pos.Raw.isValid_iff_exists_append]
  constructor
  · rintro ⟨⟨front, rest⟩, h⟩
    obtain ⟨rfl, rfl⟩ := splitAt?_eq_some_iff.mp h
    refine ⟨String.ofList front, String.ofList rest, String.ofList_append, ?_⟩
    rw [byteCount_eq]
    rfl
  · rintro ⟨front, rest, htext, hcount⟩
    refine ⟨(front.toList, rest.toList), splitAt?_eq_some_iff.mpr ⟨?_, ?_⟩⟩
    · rw [← String.toList_append, ← htext, String.toList_ofList]
    · rw [byteCount_eq, String.ofList_toList]
      exact (congrArg String.Pos.Raw.byteIdx hcount).symm

/-- A cut through a character, and one behind it. -/
example : splitAt? 1 ['π', '2'] = none ∧ splitAt? 2 ['π', '2'] = some (['π'], ['2']) := by
  decide

end Split

/-- The bytes of a text. -/
def bytes (text : List Char) : List UInt8 :=
  text.flatMap String.utf8EncodeChar

/-- The bytes behind the first ones, if there are as many. -/
def bytesFrom? (count : Nat) (bytes : List UInt8) : Option (List UInt8) :=
  if count ≤ bytes.length then some (bytes.drop count) else none

section Bytes

variable {front rest : List Char}

/-- They are the bytes that the text has as a string. -/
theorem toByteArray_bytes (text : List Char) :
    (bytes text).toByteArray = (String.ofList text).toByteArray :=
  String.toByteArray_ofList.symm

theorem bytes_cons (c : Char) (text : List Char) :
    bytes (c :: text) = String.utf8EncodeChar c ++ bytes text :=
  List.flatMap_cons

theorem bytes_append (front rest : List Char) : bytes (front ++ rest) = bytes front ++ bytes rest :=
  List.flatMap_append

theorem length_bytes (text : List Char) : (bytes text).length = byteCount text := by
  induction text with
  | nil => rfl
  | cons c text ih =>
      rw [bytes_cons, List.length_append, String.length_utf8EncodeChar, ih, byteCount_cons]

theorem isSome_bytesFrom?_iff {count : Nat} {bytes : List UInt8} :
    (bytesFrom? count bytes).isSome ↔ count ≤ bytes.length := by
  rw [bytesFrom?]
  split <;> simp_all

theorem bytesFrom?_append (front rest : List Char) :
    bytesFrom? (byteCount front) (bytes (front ++ rest)) = some (bytes rest) := by
  rw [bytesFrom?, bytes_append, ← length_bytes, if_pos (by simp), List.drop_left]

theorem getElem?_bytes_append (front rest : List Char) :
    (bytes (front ++ rest))[byteCount front]? = (bytes rest).head? := by
  rw [bytes_append, ← length_bytes, List.getElem?_append_right (Nat.le_refl _), Nat.sub_self,
    List.head?_eq_getElem?]

/-- A character below 128 is one byte, and the first byte of the others is not below it. -/
theorem exists_firstByte (c : Char) :
    ∃ first more, String.utf8EncodeChar c = first :: more ∧
      (c.toNat < 128 → first = c.toUInt8 ∧ more = []) ∧ (128 ≤ c.toNat → 128 ≤ first.toNat) := by
  by_cases hascii : c.toNat < 128
  · have hsize : c.utf8Size = 1 := Char.utf8Size_eq_one_iff.mpr (Nat.le_of_lt_succ hascii)
    exact ⟨_, _, String.utf8EncodeChar_eq_singleton hsize, fun _ => ⟨rfl, rfl⟩,
      fun h => absurd hascii (Nat.not_lt_of_le h)⟩
  · have hlarge : ¬ c.val.toNat ≤ 127 := fun h => hascii (Nat.lt_succ_of_le h)
    simp only [String.utf8EncodeChar, if_neg hlarge]
    have high : ∀ byte, 128 ≤ byte → byte < 256 → 128 ≤ (UInt8.ofNat byte).toNat := by
      intro byte hlow hbyte
      rwa [UInt8.toNat_ofNat', Nat.mod_eq_of_lt hbyte]
    split
    · exact ⟨_, _, rfl, (absurd · hascii), fun _ => high _ (by omega) (by omega)⟩
    · split <;>
        exact ⟨_, _, rfl, (absurd · hascii), fun _ => high _ (by omega) (by omega)⟩

theorem toNat_toUInt8 {c : Char} (h : c.toNat < 128) : c.toUInt8.toNat = c.toNat := by
  show c.toNat % 2 ^ 8 = c.toNat
  omega

/-- The first byte is that of a character below 128 if the text begins with this character. -/
theorem head?_bytes_eq_iff {c : Char} (h : c.toNat < 128) (text : List Char) :
    (bytes text).head? = some c.toUInt8 ↔ text.head? = some c := by
  cases text with
  | nil => simp [bytes]
  | cons d text =>
      obtain ⟨first, more, hbytes, hascii, hother⟩ := exists_firstByte d
      rw [bytes_cons, hbytes]
      simp only [List.cons_append, List.head?_cons, Option.some.injEq]
      have hsmall := toNat_toUInt8 h
      by_cases hd : d.toNat < 128
      · obtain ⟨rfl, -⟩ := hascii hd
        have hsame := toNat_toUInt8 hd
        refine ⟨fun heq => ?_, congrArg Char.toUInt8⟩
        rw [heq, hsmall] at hsame
        exact Char.toNat_inj.mp hsame.symm
      · have hlarge := hother (Nat.le_of_not_lt hd)
        constructor
        · rintro rfl
          omega
        · rintro rfl
          exact absurd h hd

end Bytes

end Calculator
