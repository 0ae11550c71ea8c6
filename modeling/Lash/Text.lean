import Lash.Client
import Lash.Format
import Mathlib.Data.List.TakeWhile

/-!
# What comes back of a string in a project file

`xmlNewChild` takes its content for XML text and replaces references in it, so what
`xmlNodeGetContent` gives back is the string itself if and only if there is no `&` in it
(`xmlText_eq_self`); any `&` makes it shorter. Numbers and ids are printed and read back.
-/

namespace Lash

/-! ## Strings -/

/-- What `xmlNodeGetContent` makes of a string that was handed to `xmlNewChild`. -/
def xmlText (s : CStr) : CStr := XmlNode.getContents (XmlNode.stringNodes s [] none)

/-- `'&'` -/
abbrev ampersand : UInt8 := 38

namespace XmlNode

@[simp] theorem getContents_nil : getContents [] = [] := rfl

@[simp] theorem getContents_cons (n : XmlNode) (ns : List XmlNode) :
    getContents (n :: ns) = n.getContent ++ getContents ns := rfl

theorem getContents_append (ns ms : List XmlNode) :
    getContents (ns ++ ms) = getContents ns ++ getContents ms := by
  induction ns with
  | nil => rfl
  | cons n ns ih => rw [List.cons_append, getContents_cons, ih, getContents_cons, List.append_assoc]

@[simp] theorem getContents_textNodes (s : CStr) : getContents (textNodes s) = s := by
  unfold textNodes
  split
  · next h => rw [h]; rfl
  · rw [getContents_cons, getContents_nil, List.append_nil, getContent]

theorem getContent_newChild (n : String) (s : Option CStr) :
    (newChild n s).getContent = xmlText (s.getD []) := by
  cases s with
  | none => rfl
  | some s => rfl

@[simp] theorem name_newChild (n : String) (s : Option CStr) : (newChild n s).name = cstr n := rfl

/-- A string without references is taken as it is. -/
theorem getContents_plain {s : CStr} (h : ampersand ∉ s) (buf : CStr) :
    getContents (stringNodes s buf none) = buf ++ s := by
  induction s generalizing buf with
  | nil => simp [stringNodes]
  | cons b s ih =>
      obtain ⟨hb, hs⟩ := List.ne_and_not_mem_of_not_mem_cons h
      rw [stringNodes, if_neg hb.symm, ih hs]
      simp

/-- A character is at most four bytes. -/
theorem length_utf8EncodeChar_le (c : Char) : (String.utf8EncodeChar c).length ≤ 4 := by
  rw [String.length_utf8EncodeChar]
  exact c.utf8Size_le_four

theorem length_utf8EncodeChar_ofNat {k : Nat} (h : k < 16) :
    (String.utf8EncodeChar (Char.ofNat k)).length = 1 := by
  interval_cases k <;> rfl

/-- The character with a number in base 10 or 16 is no longer than its digits and two bytes. -/
theorem length_charRef {k n : Nat} (h : n ≤ 1 → k < 16) :
    (String.utf8EncodeChar (Char.ofNat k)).length < n + 3 := by
  have hfour := length_utf8EncodeChar_le (Char.ofNat k)
  by_cases hn : n ≤ 1
  · rw [length_utf8EncodeChar_ofNat (h hn)]
    omega
  · omega

/-- A reference is longer than what it stands for. -/
theorem entityValue_length {n t : CStr} (h : entityValue n = some t) : t.length < n.length + 2 := by
  unfold entityValue at h
  split_ifs at h with h1 h2 h3 h4 h5
  · rw [← Option.some.inj h, h1]
    decide
  · rw [← Option.some.inj h, h2]
    decide
  · rw [← Option.some.inj h, h3]
    decide
  · rw [← Option.some.inj h, h4]
    decide
  · rw [← Option.some.inj h, h5]
    decide
  · split at h
    · next hex =>
        obtain ⟨ds, hds, rfl⟩ := Option.map_eq_some_iff.mp h
        have hlen := length_utf8EncodeChar_le (Char.ofNat (ds.foldl (fun v d => 16 * v + d) 0))
        cases hex with
        | nil =>
            rw [← Option.some.inj hds]
            decide
        | cons b hex =>
            simp only [List.length_cons]
            omega
    · next dec _ =>
        split at h
        · next hdigits =>
            rw [← Option.some.inj h]
            have hsmall : dec.length ≤ 1 → digitsValue dec < 16 := by
              intro hle
              match dec, hle with
              | [], _ => decide
              | [b], _ =>
                  have hb : isDigit b = true := by simpa using hdigits
                  simp only [isDigit, Bool.and_eq_true, decide_eq_true_eq,
                    UInt8.le_iff_toNat_le] at hb
                  have h57 : b.toNat ≤ 57 := hb.2
                  simp only [digitsValue, List.foldl_cons, List.foldl_nil]
                  omega
            exact length_charRef hsmall
        · exact absurd h (by simp)
    · exact absurd h (by simp)

/-- What is read is no longer than what is left of the string and what is in the buffer; inside a
reference it is shorter. -/
theorem length_stringNodes (s : CStr) :
    (∀ buf, (getContents (stringNodes s buf none)).length ≤ buf.length + s.length) ∧
      ∀ buf n, (getContents (stringNodes s buf (some n))).length
        < buf.length + n.length + 1 + s.length := by
  induction s with
  | nil =>
      constructor
      · intro buf
        simp [stringNodes]
      · intro buf n
        simp only [stringNodes, getContents_nil, List.length_nil]
        omega
  | cons b s ih =>
      obtain ⟨hplain, href⟩ := ih
      constructor
      · intro buf
        rw [stringNodes]
        split
        · have h := href buf []
          simp only [List.length_nil, List.length_cons] at h ⊢
          omega
        · have h := hplain (buf ++ [b])
          simp only [List.length_append, List.length_cons, List.length_nil] at h ⊢
          omega
      · intro buf n
        rw [stringNodes]
        split
        · cases ht : entityValue n with
          | none =>
              have h := hplain []
              simp only [getContents_append, getContents_textNodes, getContents_cons, getContent,
                List.nil_append, List.length_append, List.length_cons, List.length_nil] at h ⊢
              omega
          | some t =>
              have h := hplain (buf ++ t)
              have hshort := entityValue_length ht
              simp only [List.length_append, List.length_cons] at h ⊢
              omega
        · have h := href buf (n ++ [b])
          simp only [List.length_append, List.length_cons, List.length_nil] at h ⊢
          omega

/-- A reference in the string makes what is read shorter. -/
theorem length_stringNodes_lt {s : CStr} (h : ampersand ∈ s) (buf : CStr) :
    (getContents (stringNodes s buf none)).length < buf.length + s.length := by
  induction s generalizing buf with
  | nil => exact absurd h (by simp)
  | cons b s ih =>
      rw [stringNodes]
      split
      · have h := (length_stringNodes s).2 buf []
        simp only [List.length_nil, List.length_cons] at h ⊢
        omega
      · next hb =>
          have hs : ampersand ∈ s := (List.mem_cons.mp h).resolve_left (Ne.symm hb)
          have h := ih hs (buf ++ [b])
          simp only [List.length_append, List.length_cons, List.length_nil] at h ⊢
          omega

end XmlNode

open XmlNode

theorem xmlText_length_le (s : CStr) : (xmlText s).length ≤ s.length := by
  have h := (length_stringNodes s).1 []
  rwa [List.length_nil, Nat.zero_add] at h

theorem xmlText_length_lt {s : CStr} (h : ampersand ∈ s) : (xmlText s).length < s.length := by
  have h := length_stringNodes_lt h []
  rwa [List.length_nil, Nat.zero_add] at h

/-- **A string comes back** if and only if there is no `&` in it. -/
theorem xmlText_eq_self {s : CStr} : xmlText s = s ↔ ampersand ∉ s := by
  constructor
  · intro h hmem
    have hlt := xmlText_length_lt hmem
    rw [h] at hlt
    exact absurd hlt (lt_irrefl _)
  · intro h
    rw [xmlText, getContents_plain h, List.nil_append]

/-! ## Flags -/

theorem isDigit_not_ampersand {b : UInt8} (h : isDigit b = true) : b ≠ ampersand := by
  rintro rfl
  exact absurd h (by decide)

theorem ampersand_not_mem_decimal (n : Nat) : ampersand ∉ decimal n :=
  fun h => isDigit_not_ampersand (isDigit_of_mem_decimal h) rfl

theorem ampersand_not_mem_decimalInt (n : Int) : ampersand ∉ decimalInt n := by
  unfold decimalInt
  split
  · intro h
    rcases List.mem_cons.mp h with h | h
    · exact absurd h (by decide)
    · exact ampersand_not_mem_decimal _ h
  · exact ampersand_not_mem_decimal _

/-- A printed number that nothing follows is read back. -/
theorem scanNumber_decimal_end (n : Nat) : scanNumber (decimal n) = some ((n : Int), []) := by
  have hdigits : ∀ c ∈ decimal n, isDigit c = true := fun c hc => isDigit_of_mem_decimal hc
  have htake : (decimal n).takeWhile isDigit = decimal n := List.takeWhile_eq_self_iff.mpr hdigits
  have hdrop : (decimal n).dropWhile isDigit = [] := List.dropWhile_eq_nil_iff.mpr hdigits
  have hsign : takeSign ((decimal n).dropWhile isSpace) = (false, decimal n) := by
    cases hd : decimal n with
    | nil => exact absurd hd (decimal_ne_nil n)
    | cons c cs => exact takeSign_of_isDigit (hdigits c (by simp [hd])) _
  simp only [scanNumber, hsign, htake, hdrop, if_neg (decimal_ne_nil n), digitsValue_decimal,
    Bool.false_eq_true, if_false]

theorem scanNumber_negative (n : Nat) :
    scanNumber (45 :: decimal n) = some (-(n : Int), []) := by
  have hdigits : ∀ c ∈ decimal n, isDigit c = true := fun c hc => isDigit_of_mem_decimal hc
  have htake : (decimal n).takeWhile isDigit = decimal n := List.takeWhile_eq_self_iff.mpr hdigits
  have hdrop : (decimal n).dropWhile isDigit = [] := List.dropWhile_eq_nil_iff.mpr hdigits
  have hsign : takeSign ((45 :: decimal n).dropWhile isSpace) = (true, decimal n) := rfl
  simp only [scanNumber, hsign, htake, hdrop, if_neg (decimal_ne_nil n), digitsValue_decimal,
    if_true]

theorem scanNumber_decimalInt (n : Int) : scanNumber (decimalInt n) = some (n, []) := by
  unfold decimalInt
  split
  · rw [scanNumber_negative]
    congr 2
    omega
  · rw [scanNumber_decimal_end]
    congr 2
    omega

/-- The flags, printed with `%d`, are read back by `strtoul`. -/
theorem parseFlags_decimalInt (f : Flags) : parseFlags (decimalInt f.toInt) = f := by
  have hlt : f.toInt.natAbs < 2 ^ 64 := by
    have h1 := f.toInt_lt
    have h2 := f.le_toInt
    omega
  rw [parseFlags, scanNumber_decimalInt]
  dsimp only
  rw [if_neg (by omega), BitVec.ofInt_toInt]

/-! ## Ids -/

theorem hexValue_hexDigit {n : Nat} (h : n < 16) : hexValue (hexDigit n) = some n := by
  interval_cases n <;> rfl

theorem hexDigit_ne {n : Nat} (h : n < 16) : hexDigit n ≠ ampersand := by
  interval_cases n <;> decide

/-- The number that is left when the digits of a number from some place on are read. -/
theorem foldl_digits (n k : Nat) :
    (List.range k).foldl (fun v i => 16 * v + n / 16 ^ (k - 1 - i) % 16) 0 = n % 16 ^ k := by
  induction k generalizing n with
  | zero => simp [Nat.mod_one]
  | succ k ih =>
      have hstep : (List.range k).foldl (fun v i => 16 * v + n / 16 ^ (k + 1 - 1 - i) % 16) 0
          = n / 16 % 16 ^ k := by
        rw [← ih (n / 16)]
        apply List.foldl_ext
        intro v i hi
        have hik : i < k := List.mem_range.mp hi
        have hexp : k + 1 - 1 - i = (k - 1 - i) + 1 := by omega
        rw [hexp, Nat.pow_succ', Nat.div_div_eq_div_mul]
      rw [List.range_succ, List.foldl_append, hstep, List.foldl_cons, List.foldl_nil,
        Nat.pow_succ', Nat.mod_mul]
      simp
      omega

/-- The groups of `uuid_unparse` are taken apart again. -/
theorem uuidParse_groups (f : Nat → UInt8) :
    uuidParse (let digits := (List.range 32).map f
      digits.take 8 ++ [45] ++ (digits.drop 8).take 4 ++ [45] ++ (digits.drop 12).take 4 ++ [45]
        ++ (digits.drop 16).take 4 ++ [45] ++ digits.drop 20)
      = (((List.range 32).map f).mapM hexValue).map
        (fun ds => BitVec.ofNat 128 (ds.foldl (fun n d => 16 * n + d) 0)) := by
  rw [uuidParse, if_pos ⟨rfl, rfl, rfl, rfl, rfl⟩]
  rfl

theorem mapM_hexValue {f : Nat → Nat} (h : ∀ i, f i < 16) (l : List Nat) :
    (l.map (fun i => hexDigit (f i))).mapM hexValue = some (l.map f) := by
  induction l with
  | nil => rfl
  | cons i l ih =>
      rw [List.map_cons, List.mapM_cons, hexValue_hexDigit (h i), ih]
      rfl

/-- **A printed id is read back.** -/
theorem uuidParse_uuidUnparse (id : Uuid) : uuidParse (uuidUnparse id) = some id := by
  have hdigit : ∀ i, id.toNat / 16 ^ (31 - i) % 16 < 16 := fun i => Nat.mod_lt _ (by decide)
  rw [uuidUnparse, uuidParse_groups, mapM_hexValue hdigit, Option.map_some, List.foldl_map,
    foldl_digits id.toNat 32]
  congr 1
  apply BitVec.eq_of_toNat_eq
  have hlt := id.isLt
  rw [BitVec.toNat_ofNat]
  omega

theorem ampersand_not_mem_uuidUnparse (id : Uuid) : ampersand ∉ uuidUnparse id := by
  have hdigits : ampersand ∉ (List.range 32).map
      (fun i => hexDigit (id.toNat / 16 ^ (31 - i) % 16)) := by
    intro h
    obtain ⟨i, _, hi⟩ := List.mem_map.mp h
    exact hexDigit_ne (Nat.mod_lt _ (by decide)) hi
  have htake : ∀ {n} {l : CStr}, ampersand ∉ l → ampersand ∉ l.take n :=
    fun h hm => h (List.mem_of_mem_take hm)
  have hdrop : ∀ {n} {l : CStr}, ampersand ∉ l → ampersand ∉ l.drop n :=
    fun h hm => h (List.mem_of_mem_drop hm)
  have hdash : ampersand ∉ ([45] : CStr) := by decide
  simp only [uuidUnparse, List.mem_append, not_or]
  exact ⟨⟨⟨⟨⟨⟨⟨⟨htake hdigits, hdash⟩, htake (hdrop hdigits)⟩, hdash⟩, htake (hdrop hdigits)⟩,
    hdash⟩, htake (hdrop hdigits)⟩, hdash⟩, hdrop hdigits⟩

end Lash
