-- Decimal numerals: how whole numbers are written, and which texts are read as one.

namespace DelayInjection.Text

-- The character of a digit below ten.
def digitChar (digit : Nat) : Char := Char.ofNat (48 + digit)

-- The value of an ASCII digit.
def digitValue? (c : Char) : Option Nat :=
  if '0' ≤ c ∧ c ≤ '9' then some (c.toNat - 48) else none

-- The digits of a number, most significant first, without leading zeros.
def digits (n : Nat) : List Char :=
  if n < 10 then [digitChar n] else digits (n / 10) ++ [digitChar (n % 10)]
termination_by n

def integer : Int → List Char
  | .ofNat n => digits n
  | .negSucc n => '-' :: digits (n + 1)

-- Reads ASCII digits on top of the value of those before them; any other character refuses.
def readDigits (value : Nat) : List Char → Option Nat
  | [] => some value
  | c :: rest =>
      match digitValue? c with
      | some digit => readDigits (10 * value + digit) rest
      | none => none

-- One or more ASCII digits.
def natural? (text : List Char) : Option Nat :=
  if text.isEmpty then none else readDigits 0 text

-- An optional sign before one or more ASCII digits.
def integer? : List Char → Option Int
  | '+' :: rest => (natural? rest).map Int.ofNat
  | '-' :: rest => (natural? rest).map fun n => -Int.ofNat n
  | text => (natural? text).map Int.ofNat

-- The value of a digit of any base up to sixteen.
def hexValue? (c : Char) : Option Nat :=
  if '0' ≤ c ∧ c ≤ '9' then some (c.toNat - 48)
  else if 'a' ≤ c ∧ c ≤ 'f' then some (c.toNat - 87)
  else if 'A' ≤ c ∧ c ≤ 'F' then some (c.toNat - 55)
  else none

-- The number that digits of a base denote; a digit too large for the base refuses.
def inBase? (base : Nat) (digits : List Char) : Option Nat :=
  digits.foldlM
    (fun value c => (hexValue? c).bind fun d => if d < base then some (base * value + d) else none)
    0

-- Signed words hold the integers from -2^(width-1) to 2^(width-1) - 1.
def int64? (n : Int) : Option Int64 :=
  if Int64.minValue.toInt ≤ n ∧ n ≤ Int64.maxValue.toInt then some (Int64.ofInt n) else none

def int32? (n : Int) : Option Int32 :=
  if Int32.minValue.toInt ≤ n ∧ n ≤ Int32.maxValue.toInt then some (Int32.ofInt n) else none

def word64? (n : Int) : Option UInt64 :=
  if 0 ≤ n ∧ n < 18446744073709551616 then some (UInt64.ofNat n.toNat) else none

-- The written forms as text.
def ofNat (n : Nat) : String := String.ofList (digits n)

def ofInt (n : Int) : String := String.ofList (integer n)

theorem digitValue?_digitChar {d : Nat} (h : d < 10) : digitValue? (digitChar d) = some d := by
  have : ∀ d : Fin 10, digitValue? (digitChar d.val) = some d.val := by decide
  exact this ⟨d, h⟩

theorem readDigits_append (value : Nat) (front back : List Char) :
    readDigits value (front ++ back) = (readDigits value front).bind (readDigits · back) := by
  induction front generalizing value with
  | nil => simp [readDigits]
  | cons c rest ih =>
      simp only [List.cons_append, readDigits]
      cases digitValue? c with
      | none => rfl
      | some d => exact ih _

theorem digits_ne_nil (n : Nat) : digits n ≠ [] := by
  unfold digits; split <;> simp

theorem readDigits_digits (n : Nat) : readDigits 0 (digits n) = some n := by
  induction n using digits.induct with
  | case1 n h => rw [digits, if_pos h]; simp [readDigits, digitValue?_digitChar h]
  | case2 n h ih =>
      rw [digits, if_neg h, readDigits_append, ih]
      simp only [Option.bind_some, readDigits, digitValue?_digitChar (Nat.mod_lt n (by decide))]
      congr 1
      omega

theorem natural?_digits (n : Nat) : natural? (digits n) = some n := by
  simp [natural?, digits_ne_nil, readDigits_digits]

theorem mem_digits {n : Nat} {c : Char} (h : c ∈ digits n) : ∃ d, d < 10 ∧ c = digitChar d := by
  induction n using digits.induct with
  | case1 n hn =>
      rw [digits, if_pos hn] at h
      exact ⟨n, hn, by simpa using h⟩
  | case2 n hn ih =>
      rw [digits, if_neg hn, List.mem_append] at h
      rcases h with h | h
      · exact ih h
      · exact ⟨n % 10, Nat.mod_lt _ (by decide), by simpa using h⟩

theorem integer?_integer (n : Int) : integer? (integer n) = some n := by
  cases n with
  | ofNat n =>
      have hd : ∀ c ∈ digits n, c ≠ '+' ∧ c ≠ '-' := by
        intro c hc
        obtain ⟨d, hd, rfl⟩ := mem_digits hc
        have : ∀ d : Fin 10, digitChar d.val ≠ '+' ∧ digitChar d.val ≠ '-' := by decide
        exact this ⟨d, hd⟩
      have hn := natural?_digits n
      simp only [integer]
      unfold integer?
      split
      · rename_i rest heq
        exact absurd rfl ((hd '+' (by simp [heq])).1)
      · rename_i rest heq
        exact absurd rfl ((hd '-' (by simp [heq])).2)
      · simp [hn]
  | negSucc n =>
      simp only [integer, integer?, natural?_digits, Option.map_some]
      rfl

end DelayInjection.Text
