import Lash.Message
import Mathlib.Data.Nat.Digits.Lemmas

/-!
# What is in the files of a store

The bytes of an info file (`infoBytes`) and of a value file (`configBytes`), and what their readers
make of them. An info file gives the keys back unless one of them holds a newline; a value file
gives the value back unless its size does not fit into 32 bits.
-/

namespace Lash

/-! ## Numbers -/

theorem digitsValue_append_one (s : CStr) (b : UInt8) :
    digitsValue (s ++ [b]) = 10 * digitsValue s + (b.toNat - 48) := by
  simp [digitsValue, List.foldl_append]

theorem digit_toNat {d : Nat} (h : d < 10) : ((48 + d).toUInt8).toNat = 48 + d := by
  rw [Nat.toUInt8, UInt8.toNat_ofNat']
  omega

theorem digitsValue_digits {l : List Nat} (h : ∀ d ∈ l, d < 10) :
    digitsValue (l.reverse.map (fun d => (48 + d).toUInt8)) = Nat.ofDigits 10 l := by
  induction l with
  | nil => rfl
  | cons d l ih =>
      have hd : d < 10 := h d (by simp)
      have hl : ∀ e ∈ l, e < 10 := fun e he => h e (by simp [he])
      rw [List.reverse_cons, List.map_append, List.map_singleton, digitsValue_append_one, ih hl,
        digit_toNat hd, Nat.ofDigits_cons]
      omega

theorem digitsValue_decimal (n : Nat) : digitsValue (decimal n) = n := by
  unfold decimal
  split
  · next h =>
      subst h
      rfl
  · rw [digitsValue_digits (fun d hd => Nat.digits_lt_base (by omega) hd), Nat.ofDigits_digits]

theorem isDigit_of_mem_decimal {n : Nat} {b : UInt8} (h : b ∈ decimal n) : isDigit b = true := by
  unfold decimal at h
  split at h
  · rw [List.mem_singleton.mp h]
    rfl
  · obtain ⟨d, hd, rfl⟩ := List.mem_map.mp h
    have hlt : d < 10 := Nat.digits_lt_base (by omega) (List.mem_reverse.mp hd)
    have hnat := digit_toNat hlt
    simp only [isDigit, Bool.and_eq_true, decide_eq_true_eq, UInt8.le_iff_toNat_le, hnat]
    exact ⟨by simp, by simp; omega⟩

theorem decimal_ne_nil (n : Nat) : decimal n ≠ [] := by
  unfold decimal
  split
  · simp
  · next h => simp [Nat.digits_ne_nil_iff_ne_zero.mpr h]

theorem length_decimal_le {n k : Nat} (hk : 0 < k) (h : n < 10 ^ k) : (decimal n).length ≤ k := by
  unfold decimal
  split
  · exact hk
  · rw [List.length_map, List.length_reverse]
    exact (Nat.digits_length_le_iff (by omega) n).mpr h

/-- A digit is no blank and no sign, so scanning begins with it. -/
theorem takeSign_of_isDigit {b : UInt8} (h : isDigit b = true) (s : CStr) :
    takeSign ((b :: s).dropWhile isSpace) = (false, b :: s) := by
  simp only [isDigit, Bool.and_eq_true, decide_eq_true_eq] at h
  have hspace : isSpace b = false := by
    have hblank : b ≠ 32 := by
      rintro rfl
      exact absurd h.1 (by decide)
    have hcontrol : ¬ b ≤ 13 := fun hle => absurd (UInt8.le_trans h.1 hle) (by decide)
    simp [isSpace, hblank, hcontrol]
  have hplus : b ≠ 43 := by
    rintro rfl
    exact absurd h.1 (by decide)
  have hminus : b ≠ 45 := by
    rintro rfl
    exact absurd h.1 (by decide)
  rw [List.dropWhile_cons, hspace]
  simp [takeSign, hplus, hminus]

/-- **A printed number is read back**, up to what follows it. -/
theorem scanNumber_decimal (n : Nat) {b : UInt8} (hb : isDigit b = false) (rest : CStr) :
    scanNumber (decimal n ++ b :: rest) = some ((n : Int), b :: rest) := by
  have hdigits : ∀ c ∈ decimal n, isDigit c = true := fun c hc => isDigit_of_mem_decimal hc
  have htake : (decimal n ++ b :: rest).takeWhile isDigit = decimal n := by
    rw [List.takeWhile_append_of_pos hdigits, List.takeWhile_cons, hb]
    simp
  have hdrop : (decimal n ++ b :: rest).dropWhile isDigit = b :: rest := by
    rw [List.dropWhile_append_of_pos hdigits, List.dropWhile_cons, hb]
    simp
  have hsign : takeSign ((decimal n ++ b :: rest).dropWhile isSpace)
      = (false, decimal n ++ b :: rest) := by
    cases hd : decimal n with
    | nil => exact absurd hd (decimal_ne_nil n)
    | cons c cs =>
        rw [List.cons_append]
        exact takeSign_of_isDigit (hdigits c (by simp [hd])) _
  simp only [scanNumber, hsign, htake, hdrop, if_neg (decimal_ne_nil n), digitsValue_decimal,
    Bool.false_eq_true, if_false]

theorem byte_toNat (n : Nat) : ((n % 256).toUInt8).toNat = n % 256 := by
  rw [Nat.toUInt8, UInt8.toNat_ofNat']
  omega

/-- A 32-bit number in network byte order is read back. -/
theorem readBe32_be32 (n : Nat) (rest : List UInt8) :
    readBe32 (be32 n ++ rest) = some (n % 2 ^ 32, rest) := by
  simp only [be32, List.cons_append, List.nil_append, readBe32, byte_toNat]
  congr 2
  omega

/-- A number in host order is read back. -/
theorem leValue_leBytes (k n : Nat) : leValue (leBytes k n) = n % 256 ^ k := by
  induction k generalizing n with
  | zero => rw [leBytes, leValue, Nat.pow_zero, Nat.mod_one]
  | succ k ih =>
      rw [leBytes, leValue, ih, byte_toNat, Nat.pow_succ, Nat.mul_comm (256 ^ k) 256, Nat.mod_mul]

theorem leBytes_length (k n : Nat) : (leBytes k n).length = k := by
  induction k generalizing n with
  | zero => rfl
  | succ k ih => rw [leBytes, List.length_cons, ih]

/-! ## The info file -/

/-- A line for each key. -/
def keyLines (keys : List CStr) : List UInt8 := keys.flatMap (· ++ [newline])

/-- What `store_write_info_file` writes. -/
def infoBytes (n : Nat) (keys : List CStr) : List UInt8 := decimal n ++ newline :: keyLines keys

@[simp] theorem keyLines_nil : keyLines [] = [] := rfl

@[simp] theorem keyLines_cons (k : CStr) (ks : List CStr) :
    keyLines (k :: ks) = k ++ newline :: keyLines ks := by
  simp [keyLines]

theorem takeWhile_append_of_stop {q : UInt8 → Bool} {s : List UInt8} {b : UInt8}
    (h : ∀ c ∈ s, q c = true) (hb : q b = false) (rest : List UInt8) :
    (s ++ b :: rest).takeWhile q = s ∧ (s ++ b :: rest).dropWhile q = b :: rest := by
  rw [List.takeWhile_append_of_pos h, List.takeWhile_cons, hb, List.dropWhile_append_of_pos h,
    List.dropWhile_cons, hb]
  simp

theorem getline_line {s : List UInt8} (h : newline ∉ s) (rest : List UInt8) :
    getline (s ++ newline :: rest) = some (s ++ [newline], rest) := by
  obtain ⟨htake, hdrop⟩ := takeWhile_append_of_stop (q := (· ≠ newline)) (s := s) (b := newline)
    (fun c hc => by
      have hne : c ≠ newline := fun he => h (he ▸ hc)
      simpa using hne) (by simp) rest
  rw [getline, if_neg (by simp), hdrop, htake]

theorem newline_not_mem_decimal (n : Nat) : newline ∉ decimal n :=
  fun h => absurd (isDigit_of_mem_decimal h) (by decide)

/-- A key that the lines of an info file can hold. -/
def LineKey (k : CStr) : Prop := 0 ∉ k ∧ newline ∉ k

/-- A key that is read from a line holds no NUL and no newline. -/
theorem lineKey_lineKey (line : List UInt8) : LineKey (lineKey line) := by
  have hall := List.all_takeWhile (p := fun b => decide (b ≠ 0 ∧ b ≠ newline)) (l := line)
  constructor
  · intro h
    have := List.all_eq_true.mp hall 0 h
    simp at this
  · intro h
    have := List.all_eq_true.mp hall newline h
    simp at this

theorem lineKey_line {k : CStr} (hzero : 0 ∉ k) (hline : newline ∉ k) :
    lineKey (k ++ [newline]) = k := by
  refine (takeWhile_append_of_stop (s := k) (b := newline) (fun c hc => ?_) (by simp) []).1
  have h0 : c ≠ 0 := fun he => hzero (he ▸ hc)
  have hn : c ≠ newline := fun he => hline (he ▸ hc)
  simp [h0, hn]

theorem readKeys_keyLines {ks : List CStr} (h : ∀ k ∈ ks, LineKey k) :
    readKeys ks.length (keyLines ks) = some ks := by
  induction ks with
  | nil => rfl
  | cons k ks ih =>
      obtain ⟨hzero, hline⟩ := h k (by simp)
      have hks : ∀ k ∈ ks, LineKey k := fun k hk => h k (by simp [hk])
      rw [keyLines_cons, List.length_cons, readKeys, getline_line hline]
      dsimp only
      rw [ih hks, lineKey_line hzero hline]
      rfl

theorem lineKey_of_readKeys {n : Nat} {data : List UInt8} {ks : List CStr}
    (h : readKeys n data = some ks) : ∀ k ∈ ks, LineKey k := by
  induction n generalizing data ks with
  | zero =>
      rw [← Option.some.inj h]
      simp
  | succ n ih =>
      rw [readKeys] at h
      cases hline : getline data with
      | none => simp [hline] at h
      | some r =>
          obtain ⟨line, rest⟩ := r
          rw [hline] at h
          obtain ⟨ks', hks', rfl⟩ := Option.map_eq_some_iff.mp h
          intro k hk
          rcases List.mem_cons.mp hk with rfl | hk
          · exact lineKey_lineKey line
          · exact ih hks' k hk

theorem length_readKeys {n : Nat} {data : List UInt8} {ks : List CStr}
    (h : readKeys n data = some ks) : ks.length = n := by
  induction n generalizing data ks with
  | zero =>
      rw [← Option.some.inj h]
      rfl
  | succ n ih =>
      rw [readKeys] at h
      cases hline : getline data with
      | none => simp [hline] at h
      | some r =>
          rw [hline] at h
          obtain ⟨ks', hks', rfl⟩ := Option.map_eq_some_iff.mp h
          rw [List.length_cons, ih hks']

/-- The number of keys is read back as long as it fits into a `long`. -/
theorem parseNumKeys_decimal (n : Nat) :
    parseNumKeys (decimal n ++ [newline]) = if n < 2 ^ 63 then some n else none := by
  rw [parseNumKeys, scanNumber_decimal n (by decide)]
  simp only [Option.getD_some, List.head?_cons]
  by_cases h : n < 2 ^ 63
  · rw [if_neg (by omega), if_pos trivial, if_pos h]
    congr 1
    omega
  · rw [if_pos (by omega), if_neg h]

/-! ## Value files -/

/-- A type of the API. -/
def ApiType (t : UInt8) : Prop := t = typeDouble ∨ t = typeInteger ∨ t = typeString ∨ t = typeRaw

instance (t : UInt8) : Decidable (ApiType t) := inferInstanceAs (Decidable (_ ∨ _ ∨ _ ∨ _))

/-- What `store_write_config` writes. -/
def configBytes (value : List UInt8) (type : UInt8) : List UInt8 :=
  be32 value.length ++ value ++ [type]

theorem parseConfigFile_length {data v : List UInt8} {t : UInt8}
    (h : parseConfigFile data = some (v, t)) : v ≠ [] ∧ v.length < 2 ^ 32 ∧ ApiType t := by
  unfold parseConfigFile at h
  split at h
  · simp at h
  · next size rest hread =>
      have hsize : size < 2 ^ 32 := by
        unfold readBe32 at hread
        split at hread
        · next a b c d _ =>
            obtain ⟨rfl, -⟩ := Prod.mk.inj (Option.some.inj hread)
            have ha := a.toNat_lt
            have hb := b.toNat_lt
            have hc := c.toNat_lt
            have hd := d.toNat_lt
            omega
        · simp at hread
      split at h
      · simp at h
      · next hnot =>
          rw [not_or, not_lt] at hnot
          have hlen : (rest.take size).length = size := by
            rw [List.length_take]
            omega
          have hne : rest.take size ≠ [] := fun he => by
            rw [he] at hlen
            exact hnot.1 hlen.symm
          split at h
          · obtain ⟨rfl, rfl⟩ := Prod.mk.inj (Option.some.inj h)
            exact ⟨hne, hlen.symm ▸ hsize, by simp [ApiType]⟩
          · split at h
            · next htype =>
                obtain ⟨rfl, rfl⟩ := Prod.mk.inj (Option.some.inj h)
                exact ⟨hne, hlen.symm ▸ hsize, htype⟩
            · simp at h

/-- **A value file is read back** if and only if the value is not empty, its size fits into 32 bits
and its type is one of the API. -/
theorem parseConfigFile_configBytes (v : List UInt8) (t : UInt8) :
    parseConfigFile (configBytes v t) = some (v, t) ↔ v ≠ [] ∧ v.length < 2 ^ 32 ∧ ApiType t := by
  refine ⟨parseConfigFile_length, fun ⟨hne, hlen, htype⟩ => ?_⟩
  have hzero : v.length ≠ 0 := fun h => hne (List.length_eq_zero_iff.mp h)
  have hmod : v.length % 2 ^ 32 = v.length := Nat.mod_eq_of_lt hlen
  rw [parseConfigFile, configBytes, List.append_assoc, readBe32_be32]
  simp only [hmod]
  rw [if_neg (by simp [hne]), List.drop_left, List.take_left]
  exact if_pos htype

end Lash
