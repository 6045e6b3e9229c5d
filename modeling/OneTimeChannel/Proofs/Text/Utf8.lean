/-
  Every text is read back from its UTF-8 form, and nothing but the UTF-8 form of a text is read.

  The reader is strict: the range that it allows for the second byte of a character depends on the first
  one.  So the cases below are those of the first byte.  On the way back, the bounds on the number of the
  character, which is no surrogate, give in each case the bounds on the second byte
  (`first_utf8EncodeChar`); on the way there, the bounds on the bytes give those on the number
  (`utf8EncodeChar_of_first`).  A text is read character by character in both directions
  (`decodeFrom_flatMap`, `flatMap_of_decodeFrom`).
-/
import OneTimeChannel.Text.Utf8

namespace OneTimeChannel.Utf8

/-! ## Byte strings -/

theorem toList_loop (bs : ByteArray) (i : Nat) (r : Bytes) :
    ByteArray.toList.loop bs i r = r.reverse ++ bs.data.toList.drop i := by
  fun_induction ByteArray.toList.loop bs i r with
  | case1 i r hlt ih =>
    have hlength : i < bs.data.toList.length := by simpa using hlt
    have hget : bs.get! i = bs.data.toList[i] := by
      show bs.data[i]! = _
      rw [getElem!_pos bs.data i hlt, Array.getElem_toList]
    rw [ih, List.drop_eq_getElem_cons hlength, hget, List.reverse_cons, List.append_assoc]
    rfl
  | case2 i r hge =>
    rw [List.drop_eq_nil_of_le (by simpa using hge), List.append_nil]

/-- The bytes of a text are those of its characters. -/
theorem encode_ofList (cs : List Char) :
    encode (String.ofList cs) = cs.flatMap String.utf8EncodeChar := by
  show ByteArray.toList.loop (cs.flatMap String.utf8EncodeChar).toByteArray 0 [] = _
  rw [toList_loop, List.reverse_nil, List.nil_append, List.drop_zero, List.toList_data_toByteArray]

/-! ## Characters -/

theorem toNat_ofNat {n : Nat} (h : n < 256) : (UInt8.ofNat n).toNat = n := by
  rw [UInt8.toNat_ofNat', Nat.mod_eq_of_lt h]

/-- A byte in its range adds six bits. -/
theorem follow_succ {taken number low high k b : Nat} {rest : Bytes} (hb : b < 256)
    (hlow : low ≤ b) (hhigh : b ≤ high) :
    follow taken number low high (k + 1) (UInt8.ofNat b :: rest)
      = follow (taken + 1) (64 * number + (b - 0x80)) 0x80 0xbf k rest := by
  rw [follow, toNat_ofNat hb, if_pos ⟨hlow, hhigh⟩]

/-- A character outside ASCII, by what its first byte says. -/
theorem first_of_follow {b : Nat} {l : Lead} {rest : Bytes} {c : Char} (hb : b < 256)
    (hascii : 0x80 ≤ b) (hlead : lead? b = some l)
    (hfollow : follow 1 l.bits l.low l.high l.following rest = .ok c.toNat) :
    first (UInt8.ofNat b) rest = .ok (c, l.following) := by
  rw [first, toNat_ofNat hb, if_neg (Nat.not_lt.2 hascii), hlead]
  simp only [hfollow, Char.ofNat_toNat]

/-- The first of three bytes says which second bytes there are: no overlong form and no surrogate. -/
theorem lead?_of_three {n : Nat} (hlow : 0x7ff < n) (hhigh : n ≤ 0xffff)
    (hvalid : n < 0xd800 ∨ 0xdfff < n) :
    ∃ low high, lead? (n / 4096 % 16 + 224) = some ⟨n / 4096 % 16, 2, low, high⟩
      ∧ low ≤ n / 64 % 64 + 128 ∧ n / 64 % 64 + 128 ≤ high := by
  rw [lead?, if_neg (by omega)]
  split
  · next hfirst =>
    have hbits : n / 4096 % 16 = 0 := by omega
    exact ⟨0xa0, 0xbf, by rw [hbits], by omega, by omega⟩
  split
  · next hfirst =>
    have hbits : n / 4096 % 16 = 0xd := by omega
    exact ⟨0x80, 0x9f, by rw [hbits], by omega, by omega⟩
  · rw [if_pos (by omega), Nat.add_sub_cancel]
    exact ⟨0x80, 0xbf, rfl, by omega, by omega⟩

/-- The first of four bytes does, too: no overlong form, and nothing beyond the last character. -/
theorem lead?_of_four {n : Nat} (hlow : 0xffff < n) (hhigh : n < 0x110000) :
    ∃ low high, lead? (n / 262144 % 8 + 240) = some ⟨n / 262144 % 8, 3, low, high⟩
      ∧ low ≤ n / 4096 % 64 + 128 ∧ n / 4096 % 64 + 128 ≤ high := by
  rw [lead?, if_neg (by omega), if_neg (by omega), if_neg (by omega), if_neg (by omega)]
  split
  · next hfirst =>
    have hbits : n / 262144 % 8 = 0 := by omega
    exact ⟨0x90, 0xbf, by rw [hbits], by omega, by omega⟩
  split
  · rw [Nat.add_sub_cancel]
    exact ⟨0x80, 0xbf, rfl, by omega, by omega⟩
  · have hbits : n / 262144 % 8 = 4 := by omega
    rw [if_pos (by omega), hbits]
    exact ⟨0x80, 0x8f, rfl, by omega, by omega⟩

/-- The bytes of a character, by its number. -/
theorem utf8EncodeChar_eq (c : Char) :
    String.utf8EncodeChar c = if c.toNat ≤ 127 then [UInt8.ofNat c.toNat]
      else if c.toNat ≤ 2047 then
        [UInt8.ofNat (c.toNat / 64 % 32 + 192), UInt8.ofNat (c.toNat % 64 + 128)]
      else if c.toNat ≤ 65535 then
        [UInt8.ofNat (c.toNat / 4096 % 16 + 224), UInt8.ofNat (c.toNat / 64 % 64 + 128),
          UInt8.ofNat (c.toNat % 64 + 128)]
      else
        [UInt8.ofNat (c.toNat / 262144 % 8 + 240), UInt8.ofNat (c.toNat / 4096 % 64 + 128),
          UInt8.ofNat (c.toNat / 64 % 64 + 128), UInt8.ofNat (c.toNat % 64 + 128)] := rfl

/-- The first character of a byte string that starts with one. -/
theorem first_utf8EncodeChar (c : Char) (rest : Bytes) :
    ∃ b tail, String.utf8EncodeChar c = b :: tail
      ∧ first b (tail ++ rest) = .ok (c, tail.length) := by
  have hvalid : c.toNat < 0xd800 ∨ 0xdfff < c.toNat ∧ c.toNat < 0x110000 := c.valid
  have hform := utf8EncodeChar_eq c
  generalize hn : c.toNat = n at hvalid hform
  rw [hform]
  split
  · next hone =>
    refine ⟨_, _, rfl, ?_⟩
    rw [first, toNat_ofNat (by omega), if_pos (by omega), ← hn, Char.ofNat_toNat]
    rfl
  split
  · next hone htwo =>
    refine ⟨_, _, rfl, ?_⟩
    have hlead : lead? (n / 64 % 32 + 192) = some ⟨n / 64 % 32, 1, 0x80, 0xbf⟩ := by
      rw [lead?, if_pos (by omega), Nat.add_sub_cancel]
    refine first_of_follow (by omega) (by omega) hlead ?_
    simp only [List.cons_append, List.nil_append]
    rw [follow_succ (by omega) (by omega) (by omega), follow, hn]
    exact congrArg Except.ok (by omega)
  split
  · next hone htwo hthree =>
    refine ⟨_, _, rfl, ?_⟩
    obtain ⟨low, high, hlead, hlow, hhigh⟩ := lead?_of_three (by omega) hthree (by omega)
    refine first_of_follow (by omega) (by omega) hlead ?_
    simp only [List.cons_append, List.nil_append]
    rw [follow_succ (by omega) hlow hhigh, follow_succ (by omega) (by omega) (by omega), follow, hn]
    exact congrArg Except.ok (by omega)
  · next hone htwo hthree =>
    refine ⟨_, _, rfl, ?_⟩
    obtain ⟨low, high, hlead, hlow, hhigh⟩ := lead?_of_four (Nat.not_le.1 hthree) (by omega)
    refine first_of_follow (by omega) (by omega) hlead ?_
    simp only [List.cons_append, List.nil_append]
    rw [follow_succ (by omega) hlow hhigh, follow_succ (by omega) (by omega) (by omega),
      follow_succ (by omega) (by omega) (by omega), follow, hn]
    exact congrArg Except.ok (by omega)

/-! ## Characters that are read -/

theorem toNat_charOfNat {n : Nat} (h : n.isValidChar) : (Char.ofNat n).toNat = n := by
  rw [Char.ofNat, dif_pos h]
  rfl

theorem ofNat_eq_of_toNat {b : UInt8} {n : Nat} (h : n = b.toNat) : UInt8.ofNat n = b := by
  rw [h, UInt8.ofNat_toNat]

/-- A following byte that is taken in lies in its range. -/
theorem follow_succ_eq_ok {taken number low high k n : Nat} {rest : Bytes}
    (h : follow taken number low high (k + 1) rest = .ok n) :
    ∃ b tail, rest = b :: tail ∧ low ≤ b.toNat ∧ b.toNat ≤ high
      ∧ follow (taken + 1) (64 * number + (b.toNat - 0x80)) 0x80 0xbf k tail = .ok n := by
  cases rest with
  | nil => cases h
  | cons b tail =>
    rw [follow] at h
    split at h
    · next hrange => exact ⟨b, tail, rfl, hrange.1, hrange.2, h⟩
    · cases h

/-- What first bytes say, by how many bytes follow. -/
theorem lead?_eq_some {b : Nat} {l : Lead} (h : lead? b = some l) :
    0x80 ≤ l.low ∧ l.high ≤ 0xbf
      ∧ (l.following = 1 ∧ 0xc2 ≤ b ∧ b ≤ 0xdf ∧ l.bits = b - 0xc0
        ∨ l.following = 2 ∧ 0xe0 ≤ b ∧ b ≤ 0xef ∧ l.bits = b - 0xe0
          ∧ (b = 0xe0 → 0xa0 ≤ l.low) ∧ (b = 0xed → l.high ≤ 0x9f)
        ∨ l.following = 3 ∧ 0xf0 ≤ b ∧ b ≤ 0xf4 ∧ l.bits = b - 0xf0
          ∧ (b = 0xf0 → 0x90 ≤ l.low) ∧ (b = 0xf4 → l.high ≤ 0x8f)) := by
  unfold lead? at h
  -- there are seven kinds of them
  iterate 7
    split at h
    · obtain rfl := Option.some.inj h
      dsimp only
      omega
  cases h

/-- A byte string from which a character is read starts with the bytes of the character. -/
theorem utf8EncodeChar_of_first {b : UInt8} {rest : Bytes} {c : Char} {k : Nat}
    (h : first b rest = .ok (c, k)) : String.utf8EncodeChar c ++ rest.drop k = b :: rest := by
  rw [first] at h
  split at h
  · next hascii =>
    cases h
    have hvalid : (b.toNat).isValidChar := Or.inl (by omega)
    rw [utf8EncodeChar_eq, toNat_charOfNat hvalid, if_pos (by omega), UInt8.ofNat_toNat]
    rfl
  split at h
  · cases h
  next l hlead =>
  split at h
  · next n hfollow =>
    obtain ⟨hlow, hhigh, hcases⟩ := lead?_eq_some hlead
    obtain ⟨rfl, rfl⟩ : Char.ofNat n = c ∧ l.following = k := by simpa using h
    rcases hcases with ⟨hk, hb⟩ | ⟨hk, hb⟩ | ⟨hk, hb⟩
    · rw [hk] at hfollow ⊢
      obtain ⟨b₁, tail, rfl, hlow₁, hhigh₁, hfollow⟩ := follow_succ_eq_ok hfollow
      rw [follow] at hfollow
      obtain rfl := Except.ok.inj hfollow
      have hvalid : (64 * l.bits + (b₁.toNat - 0x80)).isValidChar := Or.inl (by omega)
      rw [utf8EncodeChar_eq, toNat_charOfNat hvalid, if_neg (by omega), if_pos (by omega),
        ofNat_eq_of_toNat (b := b) (by omega), ofNat_eq_of_toNat (b := b₁) (by omega)]
      rfl
    · rw [hk] at hfollow ⊢
      obtain ⟨b₁, tail, rfl, hlow₁, hhigh₁, hfollow⟩ := follow_succ_eq_ok hfollow
      obtain ⟨b₂, tail, rfl, hlow₂, hhigh₂, hfollow⟩ := follow_succ_eq_ok hfollow
      rw [follow] at hfollow
      obtain rfl := Except.ok.inj hfollow
      generalize hn : 64 * (64 * l.bits + (b₁.toNat - 0x80)) + (b₂.toNat - 0x80) = n
      have hvalid : n.isValidChar := by
        show n < 0xd800 ∨ 0xdfff < n ∧ n < 0x110000
        omega
      rw [utf8EncodeChar_eq, toNat_charOfNat hvalid, if_neg (by omega), if_neg (by omega),
        if_pos (by omega), ofNat_eq_of_toNat (b := b) (by omega),
        ofNat_eq_of_toNat (b := b₁) (by omega), ofNat_eq_of_toNat (b := b₂) (by omega)]
      rfl
    · rw [hk] at hfollow ⊢
      obtain ⟨b₁, tail, rfl, hlow₁, hhigh₁, hfollow⟩ := follow_succ_eq_ok hfollow
      obtain ⟨b₂, tail, rfl, hlow₂, hhigh₂, hfollow⟩ := follow_succ_eq_ok hfollow
      obtain ⟨b₃, tail, rfl, hlow₃, hhigh₃, hfollow⟩ := follow_succ_eq_ok hfollow
      rw [follow] at hfollow
      obtain rfl := Except.ok.inj hfollow
      generalize hn : 64 * (64 * (64 * l.bits + (b₁.toNat - 0x80)) + (b₂.toNat - 0x80))
        + (b₃.toNat - 0x80) = n
      have hvalid : n.isValidChar := by
        show n < 0xd800 ∨ 0xdfff < n ∧ n < 0x110000
        omega
      rw [utf8EncodeChar_eq, toNat_charOfNat hvalid, if_neg (by omega), if_neg (by omega),
        if_neg (by omega), ofNat_eq_of_toNat (b := b) (by omega),
        ofNat_eq_of_toNat (b := b₁) (by omega), ofNat_eq_of_toNat (b := b₂) (by omega),
        ofNat_eq_of_toNat (b := b₃) (by omega)]
      rfl
  · cases h

/-! ## Texts -/

theorem decodeFrom_flatMap (position : Nat) (text cs : List Char) :
    decodeFrom position text (cs.flatMap String.utf8EncodeChar) = .ok (text.reverse ++ cs) := by
  induction cs generalizing position text with
  | nil => rw [List.flatMap_nil, decodeFrom, List.append_nil]
  | cons c cs ih =>
    obtain ⟨b, tail, hbytes, hfirst⟩ :=
      first_utf8EncodeChar c (cs.flatMap String.utf8EncodeChar)
    rw [List.flatMap_cons, hbytes, List.cons_append, decodeFrom, hfirst]
    simp only [List.drop_left]
    rw [ih, List.reverse_cons, List.append_assoc, List.singleton_append]

/-- What is read character by character are the bytes of the characters. -/
theorem flatMap_of_decodeFrom {position : Nat} {text cs : List Char} {bs : Bytes}
    (h : decodeFrom position text bs = .ok cs) :
    ∃ rest, cs = text.reverse ++ rest ∧ rest.flatMap String.utf8EncodeChar = bs := by
  fun_induction decodeFrom position text bs with
  | case1 position text =>
    cases h
    exact ⟨[], (List.append_nil _).symm, rfl⟩
  | case2 position text b bs length hfirst => cases h
  | case3 position text b bs c following hfirst ih =>
    obtain ⟨rest, hcs, hrest⟩ := ih h
    refine ⟨c :: rest, ?_, ?_⟩
    · rw [hcs, List.reverse_cons, List.append_assoc]
      rfl
    · rw [List.flatMap_cons, hrest, utf8EncodeChar_of_first hfirst]

/-- A text in ASCII has a byte for each character. -/
theorem length_encode_of_ascii {cs : List Char} (h : ∀ c ∈ cs, c.toNat < 128) :
    (encode (String.ofList cs)).length = cs.length := by
  rw [encode_ofList]
  induction cs with
  | nil => rfl
  | cons c cs ih =>
    rw [List.forall_mem_cons] at h
    have hsize : c.utf8Size = 1 := by
      rw [Char.utf8Size_eq_one_iff, UInt32.le_iff_toNat_le]
      exact Nat.le_of_lt_succ h.1
    rw [List.flatMap_cons, List.length_append, ih h.2, String.length_utf8EncodeChar, hsize,
      List.length_cons, Nat.add_comm]

/-- A text is read back from its bytes. -/
theorem decode_encode (text : String) : decode (encode text) = .ok text := by
  obtain ⟨cs, rfl⟩ : ∃ cs, text = String.ofList cs := ⟨text.toList, String.ofList_toList.symm⟩
  rw [encode_ofList, decode, decodeFrom_flatMap]
  rfl

/-- A byte string is read as a text exactly if it is the UTF-8 form of the text. -/
theorem decode_eq_ok_iff {bs : Bytes} {text : String} : decode bs = .ok text ↔ bs = encode text := by
  constructor
  · intro h
    rw [decode] at h
    cases hcs : decodeFrom 0 [] bs with
    | error e =>
      rw [hcs] at h
      cases h
    | ok cs =>
      rw [hcs] at h
      cases h
      obtain ⟨rest, rfl, hrest⟩ := flatMap_of_decodeFrom hcs
      rw [encode_ofList]
      exact hrest.symm
  · rintro rfl
    exact decode_encode text

end OneTimeChannel.Utf8
