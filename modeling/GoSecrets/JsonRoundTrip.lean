import GoSecrets.Json

/-! What json.Marshal writes for strings and maps of strings, json.Unmarshal reads back: any
bytes as some string, valid UTF-8 as itself, and map members under their own keys. -/
namespace GoSecrets.Json

/-! ### UTF-8 -/

theorem toNat_toUInt8 {n : Nat} (h : n < 256) : n.toUInt8.toNat = n := UInt8.toNat_ofNat_of_lt h

theorem toUInt8_eq {n : Nat} {b : UInt8} (h : n = b.toNat) : n.toUInt8 = b :=
  UInt8.toNat.inj ((toNat_toUInt8 (h ▸ UInt8.toNat_lt_size b)).trans h)

theorem leadInfo_two {x : Nat} (h : 0xC2 ≤ x ∧ x ≤ 0xDF) : leadInfo x = some (2, 0x80, 0xBF) := by
  simp [leadInfo, h]

theorem leadInfo_three {x : Nat} (h : 0xE0 ≤ x ∧ x ≤ 0xEF) :
    leadInfo x = some (3, if x = 0xE0 then 0xA0 else 0x80, if x = 0xED then 0x9F else 0xBF) := by
  obtain ⟨k, hk, rfl⟩ : ∃ k < 16, x = 0xE0 + k := ⟨x - 0xE0, by omega, by omega⟩
  revert k
  decide

theorem leadInfo_four {x : Nat} (h : 0xF0 ≤ x ∧ x ≤ 0xF4) :
    leadInfo x = some (4, if x = 0xF0 then 0x90 else 0x80, if x = 0xF4 then 0x8F else 0xBF) := by
  obtain ⟨k, hk, rfl⟩ : ∃ k < 5, x = 0xF0 + k := ⟨x - 0xF0, by omega, by omega⟩
  revert k
  decide

theorem decodeRune_one {b : UInt8} (h : b.toNat < 0x80) (rest : Bytes) :
    decodeRune (b :: rest) = (b.toNat, 1) := by
  simp [decodeRune, h]

theorem decodeRune_two {b0 b1 : UInt8} (h0 : 0xC2 ≤ b0.toNat ∧ b0.toNat ≤ 0xDF)
    (h1 : 0x80 ≤ b1.toNat ∧ b1.toNat ≤ 0xBF) (rest : Bytes) :
    decodeRune (b0 :: b1 :: rest) = (b0.toNat % 32 * 64 + b1.toNat % 64, 2) := by
  simp only [decodeRune, leadInfo_two h0, List.length_cons, Bool.or_eq_true, decide_eq_true_eq]
  rw [if_neg (by omega), if_neg (by omega), if_neg (by omega), if_pos (by omega)]

theorem decodeRune_three {b0 b1 b2 : UInt8} (h0 : 0xE0 ≤ b0.toNat ∧ b0.toNat ≤ 0xEF)
    (h1 : (if b0.toNat = 0xE0 then 0xA0 else 0x80) ≤ b1.toNat ∧
      b1.toNat ≤ (if b0.toNat = 0xED then 0x9F else 0xBF))
    (h2 : 0x80 ≤ b2.toNat ∧ b2.toNat ≤ 0xBF) (rest : Bytes) :
    decodeRune (b0 :: b1 :: b2 :: rest) =
      (b0.toNat % 16 * 4096 + b1.toNat % 64 * 64 + b2.toNat % 64, 3) := by
  simp only [decodeRune, leadInfo_three h0, List.length_cons, Bool.or_eq_true, decide_eq_true_eq,
    isCont, Bool.not_eq_true', Bool.and_eq_false_iff, decide_eq_false_iff_not]
  rw [if_neg (by omega), if_neg (by omega), if_neg (by split_ifs at h1 ⊢ <;> omega), if_neg (by omega),
    if_neg (by omega), if_pos (by omega)]

theorem decodeRune_four {b0 b1 b2 b3 : UInt8} (h0 : 0xF0 ≤ b0.toNat ∧ b0.toNat ≤ 0xF4)
    (h1 : (if b0.toNat = 0xF0 then 0x90 else 0x80) ≤ b1.toNat ∧
      b1.toNat ≤ (if b0.toNat = 0xF4 then 0x8F else 0xBF))
    (h2 : 0x80 ≤ b2.toNat ∧ b2.toNat ≤ 0xBF) (h3 : 0x80 ≤ b3.toNat ∧ b3.toNat ≤ 0xBF)
    (rest : Bytes) :
    decodeRune (b0 :: b1 :: b2 :: b3 :: rest) =
      (b0.toNat % 8 * 262144 + b1.toNat % 64 * 4096 + b2.toNat % 64 * 64 + b3.toNat % 64, 4) := by
  simp only [decodeRune, leadInfo_four h0, List.length_cons, Bool.or_eq_true, decide_eq_true_eq,
    isCont, Bool.not_eq_true', Bool.and_eq_false_iff, decide_eq_false_iff_not]
  rw [if_neg (by omega), if_neg (by omega), if_neg (by split_ifs at h1 ⊢ <;> omega), if_neg (by omega),
    if_neg (by omega), if_neg (by omega), if_neg (by omega)]

/-- A lead or continuation byte `k + a`, with `k` a multiple of `n`, keeps its payload `a`
under `% n`. -/
theorem lead_mod {k a n : Nat} (hk : n ∣ k) (ha : a < n) : (k + a) % n = a := by
  obtain ⟨m, rfl⟩ := hk
  rw [Nat.add_comm, Nat.add_mul_mod_self_left, Nat.mod_eq_of_lt ha]

/-- DecodeRune reads back the scalar value EncodeRune wrote, whatever follows it. -/
theorem decodeRune_encodeRune {r : Nat} (h : IsScalar r) (rest : Bytes) :
    decodeRune (encodeRune r ++ rest) = (r, (encodeRune r).length) := by
  obtain ⟨h1, h2⟩ := h
  have hs : ¬(0x10FFFF < r ∨ (0xD800 ≤ r ∧ r ≤ 0xDFFF)) := by omega
  have hcont (x : Nat) : (0x80 + x % 64) % 64 = x % 64 := lead_mod (by decide) (Nat.mod_lt _ (by decide))
  simp only [encodeRune, hs, if_false]
  split_ifs with ha hb hc
  · have e0 : r.toUInt8.toNat = r := toNat_toUInt8 (by omega)
    rw [List.singleton_append, decodeRune_one (by omega), e0]; rfl
  · have e0 : (0xC0 + r / 64).toUInt8.toNat = 0xC0 + r / 64 := toNat_toUInt8 (by omega)
    have e1 : (0x80 + r % 64).toUInt8.toNat = 0x80 + r % 64 := toNat_toUInt8 (by omega)
    rw [List.cons_append, List.cons_append, List.nil_append,
      decodeRune_two (by omega) (by omega), e0, e1, lead_mod (by decide) (by omega), hcont]
    simp only [List.length_cons, List.length_nil, Prod.mk.injEq, and_true]; omega
  · have e0 : (0xE0 + r / 4096).toUInt8.toNat = 0xE0 + r / 4096 := toNat_toUInt8 (by omega)
    have e1 : (0x80 + r / 64 % 64).toUInt8.toNat = 0x80 + r / 64 % 64 := toNat_toUInt8 (by omega)
    have e2 : (0x80 + r % 64).toUInt8.toNat = 0x80 + r % 64 := toNat_toUInt8 (by omega)
    rw [List.cons_append, List.cons_append, List.cons_append, List.nil_append,
      decodeRune_three (by omega) (by rw [e0, e1]; split_ifs <;> omega) (by omega), e0, e1, e2,
      lead_mod (by decide) (by omega), hcont, hcont]
    simp only [List.length_cons, List.length_nil, Prod.mk.injEq, and_true]; omega
  · have e0 : (0xF0 + r / 262144).toUInt8.toNat = 0xF0 + r / 262144 := toNat_toUInt8 (by omega)
    have e1 : (0x80 + r / 4096 % 64).toUInt8.toNat = 0x80 + r / 4096 % 64 := toNat_toUInt8 (by omega)
    have e2 : (0x80 + r / 64 % 64).toUInt8.toNat = 0x80 + r / 64 % 64 := toNat_toUInt8 (by omega)
    have e3 : (0x80 + r % 64).toUInt8.toNat = 0x80 + r % 64 := toNat_toUInt8 (by omega)
    rw [List.cons_append, List.cons_append, List.cons_append, List.cons_append, List.nil_append,
      decodeRune_four (by omega) (by rw [e0, e1]; split_ifs <;> omega) (by omega) (by omega),
      e0, e1, e2, e3, lead_mod (by decide) (by omega), hcont, hcont, hcont]
    simp only [List.length_cons, List.length_nil, Prod.mk.injEq, and_true]; omega

theorem encodeRune_length_pos (r : Nat) : 0 < (encodeRune r).length := by
  unfold encodeRune
  split_ifs <;> simp only [apply_ite List.length, List.length_cons] <;> (try split_ifs) <;> omega

theorem encodeRune_ascii {r : Nat} (h : r < 0x80) : encodeRune r = [r.toUInt8] := by
  simp [encodeRune, show r ≤ 0x7F by omega]

theorem encodeRune_byte {b : UInt8} (hb : b.toNat < 0x80) : encodeRune b.toNat = [b] := by
  rw [encodeRune_ascii hb, toUInt8_eq rfl]

/-- ASCII text is valid UTF-8. -/
theorem validUTF8_of_ascii : ∀ s : Bytes, (∀ b ∈ s, b.toNat < 0x80) → ValidUTF8 s
  | [], _ => .nil
  | b :: s, h => by
    have hb := h b (.head _)
    rw [← List.singleton_append, ← encodeRune_byte hb]
    exact .cons ⟨by omega, by omega⟩ (validUTF8_of_ascii s fun x hx => h x (.tail _ hx))

/-- A rune past ASCII takes two bytes or more, each at least 0x80. -/
theorem encodeRune_high {r : Nat} (h : IsScalar r) (hr : 0x80 ≤ r) :
    2 ≤ (encodeRune r).length ∧ ∀ x ∈ encodeRune r, 0x80 ≤ x.toNat := by
  obtain ⟨h1, h2⟩ := h
  have hs : ¬(0x10FFFF < r ∨ (0xD800 ≤ r ∧ r ≤ 0xDFFF)) := by omega
  simp only [encodeRune, hs, if_false, if_neg (show ¬r ≤ 0x7F by omega)]
  split_ifs <;> refine ⟨by simp, fun x hx => ?_⟩ <;>
    simp only [List.mem_cons, List.not_mem_nil, or_false] at hx <;>
    rcases hx with rfl | rfl | rfl | rfl <;> rw [toNat_toUInt8 (by omega)] <;> omega

theorem leadInfo_some {x sz lo hi : Nat} (h : leadInfo x = some (sz, lo, hi)) :
    (sz = 2 ∧ 0xC2 ≤ x ∧ x ≤ 0xDF ∧ lo = 0x80 ∧ hi = 0xBF) ∨
    (sz = 3 ∧ 0xE0 ≤ x ∧ x ≤ 0xEF ∧ lo = (if x = 0xE0 then 0xA0 else 0x80) ∧
      hi = (if x = 0xED then 0x9F else 0xBF)) ∨
    (sz = 4 ∧ 0xF0 ≤ x ∧ x ≤ 0xF4 ∧ lo = (if x = 0xF0 then 0x90 else 0x80) ∧
      hi = (if x = 0xF4 then 0x8F else 0xBF)) := by
  by_cases hr : 0xC2 ≤ x ∧ x ≤ 0xF4
  · rcases Nat.lt_or_ge x 0xE0 with h2 | h2
    · rw [leadInfo_two ⟨hr.1, by omega⟩] at h; cases h; exact .inl ⟨rfl, hr.1, by omega, rfl, rfl⟩
    rcases Nat.lt_or_ge x 0xF0 with h3 | h3
    · rw [leadInfo_three ⟨h2, by omega⟩] at h; cases h; exact .inr (.inl ⟨rfl, h2, by omega, rfl, rfl⟩)
    · rw [leadInfo_four ⟨h3, hr.2⟩] at h; cases h; exact .inr (.inr ⟨rfl, h3, hr.2, rfl, rfl⟩)
  · simp (disch := omega) only [leadInfo, if_neg] at h
    cases h

theorem encodeRune_of_two {b0 b1 : UInt8} (h0 : 0xC2 ≤ b0.toNat ∧ b0.toNat ≤ 0xDF)
    (h1 : 0x80 ≤ b1.toNat ∧ b1.toNat ≤ 0xBF) : ∃ r, IsScalar r ∧ encodeRune r = [b0, b1] := by
  refine ⟨(b0.toNat - 0xC0) * 64 + (b1.toNat - 0x80), ⟨by omega, by omega⟩, ?_⟩
  rw [encodeRune, if_neg (by omega), if_pos (by omega)]
  exact congrArg₂ _ (toUInt8_eq (by omega)) (congrArg (· :: []) (toUInt8_eq (by omega)))

theorem encodeRune_of_three {b0 b1 b2 : UInt8} (h0 : 0xE0 ≤ b0.toNat ∧ b0.toNat ≤ 0xEF)
    (h1 : (if b0.toNat = 0xE0 then 0xA0 else 0x80) ≤ b1.toNat ∧
      b1.toNat ≤ (if b0.toNat = 0xED then 0x9F else 0xBF))
    (h2 : 0x80 ≤ b2.toNat ∧ b2.toNat ≤ 0xBF) : ∃ r, IsScalar r ∧ encodeRune r = [b0, b1, b2] := by
  have hlo : b0.toNat = 0xE0 → 0xA0 ≤ b1.toNat := fun h => by simpa [h] using h1.1
  have hhi : b0.toNat = 0xED → b1.toNat ≤ 0x9F := fun h => by simpa [h] using h1.2
  have h1' : 0x80 ≤ b1.toNat ∧ b1.toNat ≤ 0xBF := by split_ifs at h1 <;> omega
  obtain ⟨a, ha⟩ : ∃ a, b0.toNat = 0xE0 + a := ⟨b0.toNat - 0xE0, by omega⟩
  obtain ⟨c, hc⟩ : ∃ c, b1.toNat = 0x80 + c := ⟨b1.toNat - 0x80, by omega⟩
  obtain ⟨d, hd⟩ : ∃ d, b2.toNat = 0x80 + d := ⟨b2.toNat - 0x80, by omega⟩
  refine ⟨a * 4096 + c * 64 + d, ⟨by omega, by omega⟩, ?_⟩
  have hs : ¬(0x10FFFF < a * 4096 + c * 64 + d ∨
    (0xD800 ≤ a * 4096 + c * 64 + d ∧ a * 4096 + c * 64 + d ≤ 0xDFFF)) := by omega
  simp only [encodeRune, hs, if_false]
  rw [if_neg (by omega), if_neg (by omega), if_pos (by omega)]
  simp only [List.cons.injEq, and_true]
  exact ⟨toUInt8_eq (by omega), toUInt8_eq (by omega), toUInt8_eq (by omega)⟩

theorem encodeRune_of_four {b0 b1 b2 b3 : UInt8} (h0 : 0xF0 ≤ b0.toNat ∧ b0.toNat ≤ 0xF4)
    (h1 : (if b0.toNat = 0xF0 then 0x90 else 0x80) ≤ b1.toNat ∧
      b1.toNat ≤ (if b0.toNat = 0xF4 then 0x8F else 0xBF))
    (h2 : 0x80 ≤ b2.toNat ∧ b2.toNat ≤ 0xBF) (h3 : 0x80 ≤ b3.toNat ∧ b3.toNat ≤ 0xBF) :
    ∃ r, IsScalar r ∧ encodeRune r = [b0, b1, b2, b3] := by
  have hlo : b0.toNat = 0xF0 → 0x90 ≤ b1.toNat := fun h => by simpa [h] using h1.1
  have hhi : b0.toNat = 0xF4 → b1.toNat ≤ 0x8F := fun h => by simpa [h] using h1.2
  have h1' : 0x80 ≤ b1.toNat ∧ b1.toNat ≤ 0xBF := by split_ifs at h1 <;> omega
  obtain ⟨a, ha⟩ : ∃ a, b0.toNat = 0xF0 + a := ⟨b0.toNat - 0xF0, by omega⟩
  obtain ⟨c, hc⟩ : ∃ c, b1.toNat = 0x80 + c := ⟨b1.toNat - 0x80, by omega⟩
  obtain ⟨d, hd⟩ : ∃ d, b2.toNat = 0x80 + d := ⟨b2.toNat - 0x80, by omega⟩
  obtain ⟨e, he⟩ : ∃ e, b3.toNat = 0x80 + e := ⟨b3.toNat - 0x80, by omega⟩
  refine ⟨a * 262144 + c * 4096 + d * 64 + e, ⟨by omega, by omega⟩, ?_⟩
  have hs : ¬(0x10FFFF < a * 262144 + c * 4096 + d * 64 + e ∨
    (0xD800 ≤ a * 262144 + c * 4096 + d * 64 + e ∧ a * 262144 + c * 4096 + d * 64 + e ≤ 0xDFFF)) := by omega
  simp only [encodeRune, hs, if_false]
  rw [if_neg (by omega), if_neg (by omega), if_neg (by omega)]
  simp only [List.cons.injEq, and_true]
  exact ⟨toUInt8_eq (by omega), toUInt8_eq (by omega), toUInt8_eq (by omega), toUInt8_eq (by omega)⟩

/-- utf8.DecodeRune either rejects the byte in front, or reads the encoding of a scalar value. -/
theorem decodeRune_cases {b : UInt8} (hb : 0x80 ≤ b.toNat) (rest : Bytes) :
    decodeRune (b :: rest) = (runeError, 1) ∨ ∃ r t, IsScalar r ∧ b :: rest = encodeRune r ++ t := by
  have hx : ¬ b.toNat < 0x80 := by omega
  cases hl : leadInfo b.toNat with
  | none => exact .inl (by simp only [decodeRune, hx, if_false, hl])
  | some p =>
    obtain ⟨sz, lo, hi⟩ := p
    have hsz := leadInfo_some hl
    simp only [decodeRune, hx, if_false, hl]
    by_cases hlen : rest.length + 1 < sz
    · exact .inl (by rw [if_pos hlen])
    rw [if_neg hlen]
    rcases rest with _ | ⟨b1, t⟩
    · exact .inl rfl
    dsimp only
    by_cases h1 : (decide (b1.toNat < lo) || decide (hi < b1.toNat)) = true
    · exact .inl (by rw [if_pos h1])
    rw [if_neg h1]
    simp only [Bool.or_eq_true, decide_eq_true_eq, not_or, not_lt] at h1
    by_cases h2 : sz ≤ 2
    · refine .inr ?_
      obtain ⟨r, hr, he⟩ := encodeRune_of_two (show 0xC2 ≤ b.toNat ∧ b.toNat ≤ 0xDF by omega)
        (show 0x80 ≤ b1.toNat ∧ b1.toNat ≤ 0xBF by omega)
      exact ⟨r, t, hr, by rw [he]; rfl⟩
    rw [if_neg h2]
    rcases t with _ | ⟨b2, t⟩
    · exact .inl rfl
    dsimp only
    by_cases h3 : (!isCont b2) = true
    · exact .inl (by rw [if_pos h3])
    rw [if_neg h3]
    simp only [isCont, Bool.not_eq_true', Bool.and_eq_false_iff, decide_eq_false_iff_not, not_or,
      not_not] at h3
    by_cases h4 : sz ≤ 3
    · rcases hsz with ⟨rfl, -⟩ | ⟨-, h0, h0', rfl, rfl⟩ | ⟨rfl, -⟩
      · omega
      · obtain ⟨r, hr, he⟩ := encodeRune_of_three ⟨h0, h0'⟩ h1 h3
        exact .inr ⟨r, t, hr, by rw [he]; rfl⟩
      · omega
    rw [if_neg h4]
    rcases t with _ | ⟨b3, t⟩
    · exact .inl rfl
    dsimp only
    by_cases h5 : (!isCont b3) = true
    · exact .inl (by rw [if_pos h5])
    rw [if_neg h5]
    simp only [isCont, Bool.not_eq_true', Bool.and_eq_false_iff, decide_eq_false_iff_not, not_or,
      not_not] at h5
    rcases hsz with ⟨rfl, -⟩ | ⟨rfl, -⟩ | ⟨-, h0, h0', rfl, rfl⟩
    · omega
    · omega
    · obtain ⟨r, hr, he⟩ := encodeRune_of_four ⟨h0, h0'⟩ h1 h3 h5
      exact .inr ⟨r, t, hr, by rw [he]; rfl⟩

/-- Bytes as utf8.DecodeRune reads them: the encodings of scalar values, and single bytes it
rejects. -/
theorem rune_induction {motive : Bytes → Prop} (s : Bytes) (nil : motive [])
    (rune : ∀ r rest, IsScalar r → motive rest → motive (encodeRune r ++ rest))
    (bad : ∀ b rest, 0x80 ≤ b.toNat → decodeRune (b :: rest) = (runeError, 1) → motive rest →
      motive (b :: rest)) : motive s :=
  match s with
  | [] => nil
  | b :: rest => by
    by_cases hb : b.toNat < 0x80
    · rw [← List.singleton_append, ← encodeRune_byte hb]
      exact rune _ _ ⟨by omega, by omega⟩ (rune_induction rest nil rune bad)
    rcases decodeRune_cases (Nat.le_of_not_lt hb) rest with h | ⟨r, t, hr, he⟩
    · exact bad b rest (by omega) h (rune_induction rest nil rune bad)
    · have hlt : t.length < rest.length + 1 := by
        have hl := congrArg List.length he
        simp only [List.length_append, List.length_cons] at hl
        have := encodeRune_length_pos r
        omega
      rw [he]
      exact rune r t hr (rune_induction t nil rune bad)
termination_by s.length

/-! ### String literals -/

/-- What appendString writes for the rune `r`. -/
def runeText (r : Nat) : Bytes :=
  if r < 0x80 then (if htmlSafe r.toUInt8 then [r.toUInt8] else escapeByte r.toUInt8)
  else if r = 0x2028 ∨ r = 0x2029 then ascii "\\u202" ++ [hexDigit (r % 16)]
  else encodeRune r

theorem encodeBody_rune {r : Nat} (h : IsScalar r) (n : Nat) (rest : Bytes) :
    encodeBody (n + 1) (encodeRune r ++ rest) = runeText r ++ encodeBody n rest := by
  by_cases ha : r < 0x80
  · have e0 : r.toUInt8.toNat = r := toNat_toUInt8 (by omega)
    rw [encodeRune_ascii ha, List.singleton_append, encodeBody, if_pos (by omega), runeText,
      if_pos ha]
  · obtain ⟨hl, hb⟩ := encodeRune_high h (by omega)
    have hd := decodeRune_encodeRune h rest
    have hr : ¬(r = runeError ∧ (encodeRune r).length = 1) := by omega
    have htake : (encodeRune r ++ rest).take (encodeRune r).length = encodeRune r := by simp
    have hdrop : (encodeRune r ++ rest).drop (encodeRune r).length = rest := by simp
    obtain ⟨b, t, he⟩ : ∃ b t, encodeRune r = b :: t :=
      match encodeRune r, hl with | b :: t, _ => ⟨b, t, rfl⟩
    have hb0 := hb b (he ▸ List.mem_cons_self b t)
    rw [he, List.cons_append] at hd htake hdrop
    rw [he] at hr
    rw [he, List.cons_append, encodeBody, if_neg (by omega)]
    simp only [hd, hr, if_false, runeText, if_neg ha]
    split_ifs <;> simp only [htake, hdrop, he, List.append_assoc]

theorem hexVal_hexDigit : ∀ k < 16, hexVal (hexDigit k) = some k := by decide

/-- The content of a string literal as the scanner accepts it: bytes other than `"`, `\`
and control bytes, two-byte escapes, and `\u` escapes with four hex digits. -/
inductive LitContent : Bytes → Prop where
  | nil : LitContent []
  | raw {b : UInt8} {rest : Bytes} : b ≠ 34 → b ≠ 92 → 0x20 ≤ b.toNat → LitContent rest →
      LitContent (b :: rest)
  | esc {c : UInt8} {rest : Bytes} :
      (c = 34 ∨ c = 92 ∨ c = 47 ∨ c = 98 ∨ c = 102 ∨ c = 110 ∨ c = 114 ∨ c = 116) →
      LitContent rest → LitContent (92 :: c :: rest)
  | uesc {h : Bytes} {rest : Bytes} : h.length = 4 → (∀ x ∈ h, (hexVal x).isSome) →
      LitContent rest → LitContent (92 :: 117 :: h ++ rest)

theorem scanString_raw {b : UInt8} (h34 : b ≠ 34) (h20 : 0x20 ≤ b.toNat) (h92 : b ≠ 92) (n : Nat)
    (s : Bytes) : scanString (n + 1) (b :: s) = (scanString n s).map fun p => (b :: p.1, p.2) := by
  conv_lhs => unfold scanString
  rw [if_neg h34, if_neg (by omega), if_neg h92]

theorem scanString_esc {c : UInt8}
    (hc : c = 34 ∨ c = 92 ∨ c = 47 ∨ c = 98 ∨ c = 102 ∨ c = 110 ∨ c = 114 ∨ c = 116) (n : Nat)
    (s : Bytes) : scanString (n + 1) (92 :: c :: s) = (scanString n s).map fun p => (92 :: c :: p.1, p.2) := by
  conv_lhs => unfold scanString
  rw [if_neg (by decide), if_neg (by decide), if_pos rfl]
  simp only [if_pos hc]

theorem scanString_uesc {a b c d : UInt8} {va vb vc vd : Nat} (ha : hexVal a = some va)
    (hb : hexVal b = some vb) (hc : hexVal c = some vc) (hd : hexVal d = some vd) (n : Nat) (s : Bytes) :
    scanString (n + 1) (92 :: 117 :: a :: b :: c :: d :: s) =
      (scanString n s).map fun p => (92 :: 117 :: a :: b :: c :: d :: p.1, p.2) := by
  conv_lhs => unfold scanString
  rw [if_neg (by decide), if_neg (by decide), if_pos rfl]
  simp [getu4, ha, hb, hc, hd]
theorem scanString_lit {e : Bytes} (he : LitContent e) :
    ∀ (n : Nat) (tail : Bytes), e.length < n → scanString n (e ++ 34 :: tail) = some (e, tail) := by
  induction he with
  | nil => intro n tail hn; obtain ⟨n, rfl⟩ : ∃ m, n = m + 1 := ⟨n - 1, by omega⟩; simp [scanString]
  | raw h34 h92 h20 _ ih =>
    intro n tail hn
    obtain ⟨n, rfl⟩ : ∃ m, n = m + 1 := ⟨n - 1, by omega⟩
    simp only [List.length_cons] at hn
    rw [List.cons_append, scanString_raw h34 h20 h92, ih n tail (by omega)]
    rfl
  | esc hc _ ih =>
    intro n tail hn
    obtain ⟨n, rfl⟩ : ∃ m, n = m + 1 := ⟨n - 1, by omega⟩
    simp only [List.length_cons] at hn
    rw [List.cons_append, List.cons_append, scanString_esc hc, ih n tail (by omega)]
    rfl
  | @uesc h rest hl hh _ ih =>
    intro n tail hn
    obtain ⟨n, rfl⟩ : ∃ m, n = m + 1 := ⟨n - 1, by omega⟩
    simp only [List.length_cons, List.length_append, hl] at hn
    match h, hl, hh with
    | [a, b, c, d], _, hh =>
      simp only [List.mem_cons, List.not_mem_nil, or_false, forall_eq_or_imp, forall_eq] at hh
      obtain ⟨va, ha⟩ := Option.isSome_iff_exists.mp hh.1
      obtain ⟨vb, hb⟩ := Option.isSome_iff_exists.mp hh.2.1
      obtain ⟨vc, hc⟩ := Option.isSome_iff_exists.mp hh.2.2.1
      obtain ⟨vd, hd⟩ := Option.isSome_iff_exists.mp hh.2.2.2
      simp only [List.cons_append, List.nil_append]
      rw [scanString_uesc ha hb hc hd, ih n tail (by omega)]
      rfl

theorem unquote_ascii {b : UInt8} (h80 : b.toNat < 0x80) (h20 : 0x20 ≤ b.toNat) (h34 : b ≠ 34)
    (h92 : b ≠ 92) (n : Nat) (s : Bytes) : unquote (n + 1) (b :: s) = (unquote n s).map (b :: ·) := by
  conv_lhs => unfold unquote
  rw [if_neg h92, if_neg (not_or.mpr ⟨h34, by omega⟩), if_pos h80]

/-- unquote on an escape, by what unquoteEscape reads after the backslash. -/
theorem unquote_escape {s d rest : Bytes} (h : unquoteEscape 92 s = some (d, rest)) (n : Nat) :
    unquote (n + 1) (92 :: s) = (unquote n rest).map (d ++ ·) := by
  conv_lhs => unfold unquote
  rw [if_pos rfl]
  simp only [h]

/-- What escapeByte writes: a two-byte escape that unquoteEscape reads back as the byte,
or the byte's \u00XY escape. -/
theorem escapeByte_cases (b : UInt8) :
    (∃ c, escapeByte b = [92, c] ∧
      (c = 34 ∨ c = 92 ∨ c = 47 ∨ c = 98 ∨ c = 102 ∨ c = 110 ∨ c = 114 ∨ c = 116) ∧
      ∀ s, unquoteEscape 92 (c :: s) = some ([b], s)) ∨
    escapeByte b = [92, 117, 48, 48, hexDigit (b.toNat / 16), hexDigit (b.toNat % 16)] := by
  by_cases hs : b = 92 ∨ b = 34 ∨ b = 8 ∨ b = 12 ∨ b = 10 ∨ b = 13 ∨ b = 9
  · rcases hs with rfl | rfl | rfl | rfl | rfl | rfl | rfl <;>
      exact .inl ⟨_, rfl, by decide, fun _ => rfl⟩
  · simp only [not_or] at hs
    obtain ⟨h1, h2, h3, h4, h5, h6, h7⟩ := hs
    right
    rw [escapeByte, if_neg (not_or.mpr ⟨h1, h2⟩), if_neg h3, if_neg h4, if_neg h5, if_neg h6, if_neg h7]

theorem unquote_escapeByte {b : UInt8} (h80 : b.toNat < 0x80) (n : Nat) (s : Bytes) :
    unquote (n + 1) (escapeByte b ++ s) = (unquote n s).map (b :: ·) := by
  rcases escapeByte_cases b with ⟨c, he, -, hc⟩ | he
  · rw [he]
    exact unquote_escape (hc s) n
  · have hb : encodeRune b.toNat = [b] := by
      rw [encodeRune_ascii h80]; exact congrArg (· :: []) (UInt8.toNat.inj (toNat_toUInt8 (by omega)))
    have hx := hexVal_hexDigit (b.toNat / 16) (by omega)
    have hy := hexVal_hexDigit (b.toNat % 16) (by omega)
    have h0 : hexVal 48 = some 0 := rfl
    have hr : b.toNat / 16 * 16 + b.toNat % 16 = b.toNat := by omega
    have hs : ¬(55296 ≤ b.toNat ∧ b.toNat < 57344) := by omega
    have hu : unquoteEscape 92 ([117, 48, 48, hexDigit (b.toNat / 16), hexDigit (b.toNat % 16)] ++ s) =
        some ([b], s) := by
      simp [unquoteEscape, getu4, hx, hy, h0, hr, hs, hb]
    rw [he]
    exact unquote_escape hu n

theorem lit_append_high {c rest : Bytes} (hc : ∀ x ∈ c, 0x80 ≤ x.toNat) (h : LitContent rest) :
    LitContent (c ++ rest) := by
  induction c with
  | nil => exact h
  | cons x c ih =>
    have hx := hc x (.head _)
    exact .raw (by rintro rfl; exact absurd hx (by decide)) (by rintro rfl; exact absurd hx (by decide))
      (by omega) (ih fun y hy => hc y (.tail _ hy))

theorem lit_escapeByte (b : UInt8) {rest : Bytes} (h : LitContent rest) :
    LitContent (escapeByte b ++ rest) := by
  rcases escapeByte_cases b with ⟨c, he, hc, -⟩ | he
  · rw [he]
    exact .esc hc h
  · have hx := hexVal_hexDigit (b.toNat / 16) (Nat.div_lt_of_lt_mul (UInt8.toNat_lt_size b))
    have hy := hexVal_hexDigit (b.toNat % 16) (Nat.mod_lt _ (by decide))
    rw [he]
    exact .uesc rfl (by simp [hx, hy]; rfl) h

theorem lit_runeText {r : Nat} (h : IsScalar r) {rest : Bytes} (hr : LitContent rest) :
    LitContent (runeText r ++ rest) := by
  unfold runeText
  split_ifs with ha hs hu
  · simp only [htmlSafe, Bool.and_eq_true, decide_eq_true_eq, bne_iff_ne, ne_eq] at hs
    exact .raw hs.1.1.1.1.2 hs.1.1.1.2 hs.1.1.1.1.1.1 hr
  · exact lit_escapeByte _ hr
  · rcases hu with rfl | rfl <;> exact .uesc rfl (by decide) hr
  · exact lit_append_high (encodeRune_high h (by omega)).2 hr

theorem encodeBody_nil : ∀ m, encodeBody m [] = []
  | 0 => rfl
  | _ + 1 => rfl

theorem encodeBody_bad {b : UInt8} {rest : Bytes} (hb : 0x80 ≤ b.toNat)
    (hd : decodeRune (b :: rest) = (runeError, 1)) (n : Nat) :
    encodeBody (n + 1) (b :: rest) = ascii "\\ufffd" ++ encodeBody n rest := by
  rw [encodeBody, if_neg (by omega)]
  simp only [hd, and_self, if_true]

theorem unquote_replacement (n : Nat) (s : Bytes) :
    unquote (n + 1) (ascii "\\ufffd" ++ s) = (unquote n s).map (encodeRune runeError ++ ·) := rfl

/-- appendString writes a literal the scanner accepts, for any bytes. -/
theorem lit_encodeBody (s : Bytes) : ∀ m, s.length ≤ m → LitContent (encodeBody m s) := by
  induction s using rune_induction with
  | nil => intro m _; rw [encodeBody_nil]; exact .nil
  | rune r rest hr ih =>
    intro m hm
    have := encodeRune_length_pos r
    rw [List.length_append] at hm
    obtain ⟨m, rfl⟩ : ∃ k, m = k + 1 := ⟨m - 1, by omega⟩
    rw [encodeBody_rune hr]
    exact lit_runeText hr (ih m (by omega))
  | bad b rest hb hd ih =>
    intro m hm
    obtain ⟨m, rfl⟩ : ∃ k, m = k + 1 := ⟨m - 1, by simp at hm; omega⟩
    rw [encodeBody_bad hb hd]
    exact .uesc rfl (by decide) (ih m (by simp at hm; omega))

theorem unquote_high {r : Nat} (h : IsScalar r) (hr : 0x80 ≤ r) (n : Nat) (s : Bytes) :
    unquote (n + 1) (encodeRune r ++ s) = (unquote n s).map (encodeRune r ++ ·) := by
  obtain ⟨hl, hb⟩ := encodeRune_high h hr
  have hd := decodeRune_encodeRune h s
  have hdrop : (encodeRune r ++ s).drop (encodeRune r).length = s := by simp
  obtain ⟨b, t, he⟩ : ∃ b t, encodeRune r = b :: t :=
    match encodeRune r, hl with | b :: t, _ => ⟨b, t, rfl⟩
  have hb0 := hb b (he ▸ List.mem_cons_self b t)
  rw [he, List.cons_append] at hd hdrop ⊢
  conv_lhs => unfold unquote
  rw [if_neg (by rintro rfl; exact absurd hb0 (by decide)),
    if_neg (not_or.mpr ⟨by rintro rfl; exact absurd hb0 (by decide), by omega⟩), if_neg (by omega)]
  simp only [hd, hdrop, he]

theorem unquote_lineSep {r : Nat} (hr : r = 0x2028 ∨ r = 0x2029) (n : Nat) (s : Bytes) :
    unquote (n + 1) (ascii "\\u202" ++ [hexDigit (r % 16)] ++ s) =
      (unquote n s).map (encodeRune r ++ ·) := by
  rcases hr with rfl | rfl <;> rfl

theorem unquote_runeText {r : Nat} (h : IsScalar r) (n : Nat) (s : Bytes) :
    unquote (n + 1) (runeText r ++ s) = (unquote n s).map (encodeRune r ++ ·) := by
  unfold runeText
  split_ifs with ha hs hu
  · have e0 : r.toUInt8.toNat = r := toNat_toUInt8 (by omega)
    simp only [htmlSafe, Bool.and_eq_true, decide_eq_true_eq, bne_iff_ne, ne_eq] at hs
    rw [List.singleton_append, unquote_ascii (by omega) hs.1.1.1.1.1.1 hs.1.1.1.1.2 hs.1.1.1.2,
      encodeRune_ascii ha]
    rfl
  · have e0 : r.toUInt8.toNat = r := toNat_toUInt8 (by omega)
    rw [unquote_escapeByte (by omega), encodeRune_ascii ha]
    rfl
  · exact unquote_lineSep hu n s
  · exact unquote_high h (by omega) n s

/-- runeText writes something: unquote reads a rune from it. -/
theorem runeText_length_pos {r : Nat} (h : IsScalar r) : 0 < (runeText r).length :=
  List.length_pos.mpr fun he => by simpa [he, unquote] using unquote_runeText h 0 []

/-- unquote gives back a valid string from the literal body appendString writes for it. -/
theorem unquote_encodeBody {s : Bytes} (hs : ValidUTF8 s) :
    ∀ m, s.length ≤ m → ∀ n, (encodeBody m s).length < n → unquote n (encodeBody m s) = some s := by
  induction hs with
  | nil =>
    intro m _ n hn
    rw [encodeBody_nil] at hn ⊢
    obtain ⟨n, rfl⟩ : ∃ k, n = k + 1 := ⟨n - 1, by omega⟩
    rfl
  | @cons r rest hr _ ih =>
    intro m hm n hn
    have := encodeRune_length_pos r
    rw [List.length_append] at hm
    obtain ⟨m, rfl⟩ : ∃ k, m = k + 1 := ⟨m - 1, by omega⟩
    rw [encodeBody_rune hr] at hn ⊢
    have hne := runeText_length_pos hr
    rw [List.length_append] at hn
    obtain ⟨n, rfl⟩ : ∃ k, n = k + 1 := ⟨n - 1, by omega⟩
    rw [unquote_runeText hr, ih m (by omega) n (by omega)]
    rfl


/-- unquote reads something back from the literal body appendString writes, for any bytes. -/
theorem unquote_encodeBody_any (s : Bytes) :
    ∀ m, s.length ≤ m → ∃ w, ∀ n, (encodeBody m s).length < n → unquote n (encodeBody m s) = some w := by
  induction s using rune_induction with
  | nil =>
    refine fun m _ => ⟨[], fun n hn => ?_⟩
    rw [encodeBody_nil] at hn ⊢
    obtain ⟨n, rfl⟩ : ∃ k, n = k + 1 := ⟨n - 1, by omega⟩
    rfl
  | rune r rest hr ih =>
    intro m hm
    have := encodeRune_length_pos r
    rw [List.length_append] at hm
    obtain ⟨m, rfl⟩ : ∃ k, m = k + 1 := ⟨m - 1, by omega⟩
    obtain ⟨w, hw⟩ := ih m (by omega)
    refine ⟨encodeRune r ++ w, fun n hn => ?_⟩
    rw [encodeBody_rune hr] at hn ⊢
    rw [List.length_append] at hn
    have hne := runeText_length_pos hr
    obtain ⟨n, rfl⟩ : ∃ k, n = k + 1 := ⟨n - 1, by omega⟩
    rw [unquote_runeText hr, hw n (by omega)]
    rfl
  | bad b rest hb hd ih =>
    intro m hm
    obtain ⟨m, rfl⟩ : ∃ k, m = k + 1 := ⟨m - 1, by simp at hm; omega⟩
    obtain ⟨w, hw⟩ := ih m (by simp at hm; omega)
    refine ⟨encodeRune runeError ++ w, fun n hn => ?_⟩
    rw [encodeBody_bad hb hd] at hn ⊢
    rw [List.length_append] at hn
    obtain ⟨n, rfl⟩ : ∃ k, n = k + 1 := ⟨n - 1, by omega⟩
    have h6 : (ascii "\\ufffd").length = 6 := rfl
    rw [unquote_replacement, hw n (by omega)]
    rfl

/-- What json.Unmarshal reads back from the literal json.Marshal writes for `v`. -/
def readString (v : Bytes) : Bytes :=
  (unquote ((encodeBody v.length v).length + 1) (encodeBody v.length v)).getD []

theorem parseString_encodeBody_any (v tail : Bytes) :
    parseString (encodeBody v.length v ++ 34 :: tail) = some (readString v, tail) := by
  obtain ⟨w, hw⟩ := unquote_encodeBody_any v v.length le_rfl
  unfold parseString
  rw [scanString_lit (lit_encodeBody v v.length le_rfl) _ tail (by simp; omega)]
  simp [readString, hw _ (Nat.lt_succ_self _)]

/-- A valid string reads back as itself. -/
theorem readString_of_valid {v : Bytes} (hv : ValidUTF8 v) : readString v = v := by
  simp [readString, unquote_encodeBody hv v.length le_rfl _ (Nat.lt_succ_self _)]

/-- The decoder reads back a valid string from the body appendString writes for it. -/
theorem parseString_encodeBody {s : Bytes} (hs : ValidUTF8 s) (tail : Bytes) :
    parseString (encodeBody s.length s ++ 34 :: tail) = some (s, tail) := by
  rw [parseString_encodeBody_any, readString_of_valid hs]

/-! ### Objects -/

theorem intercalate_cons_cons (x y : Bytes) (l : List Bytes) :
    [44].intercalate (x :: y :: l) = x ++ 44 :: [44].intercalate (y :: l) := by
  simp [List.intercalate, List.intersperse_cons_cons]

theorem intercalate_singleton (x : Bytes) : [44].intercalate [x] = x := by
  simp [List.intercalate]

theorem intercalate_cons_of_ne_nil (x : Bytes) : ∀ {l : List Bytes}, l ≠ [] →
    [44].intercalate (x :: l) = x ++ 44 :: [44].intercalate l
  | _ :: _, _ => intercalate_cons_cons _ _ _

theorem intercalate_cons_eq (x : Bytes) : ∀ l : List Bytes, ∃ y, [44].intercalate (x :: l) = x ++ y
  | [] => ⟨[], by rw [intercalate_singleton, List.append_nil]⟩
  | _ :: _ => ⟨_, intercalate_cons_cons _ _ _⟩

theorem length_le_intercalate : ∀ l : List Bytes, (∀ x ∈ l, x ≠ []) → l.length ≤ ([44].intercalate l).length
  | [], _ => Nat.zero_le _
  | [x], h => by
    rw [intercalate_singleton]
    exact List.length_pos.mpr (h x (.head _))
  | x :: y :: l, h => by
    rw [intercalate_cons_cons]
    have := length_le_intercalate (y :: l) fun z hz => h z (.tail _ hz)
    simp only [List.length_cons, List.length_append] at this ⊢
    omega

theorem insertByKey_map {α β : Type} (g : α → β) (p : Bytes × α) : ∀ l : List (Bytes × α),
    insertByKey (p.1, g p.2) (l.map fun q => (q.1, g q.2)) = (insertByKey p l).map fun q => (q.1, g q.2)
  | [] => rfl
  | q :: l => by
    simp only [List.map_cons, insertByKey]
    split <;> simp [insertByKey_map g p l]

/-- Sorting by key commutes with changing the values. -/
theorem sortByKey_map {α β : Type} (g : α → β) (l : List (Bytes × α)) :
    sortByKey (l.map fun q => (q.1, g q.2)) = (sortByKey l).map fun q => (q.1, g q.2) := by
  induction l with
  | nil => rfl
  | cons p l ih =>
    simp only [sortByKey, List.map_cons, List.foldr_cons] at ih ⊢
    rw [ih, insertByKey_map]

theorem insertByKey_perm {α : Type} (p : Bytes × α) : ∀ l, (insertByKey p l).Perm (p :: l)
  | [] => .refl _
  | q :: l => by
    unfold insertByKey
    split
    · exact .refl _
    · exact ((insertByKey_perm p l).cons q).trans (.swap p q l)

theorem sortByKey_perm {α : Type} (l : List (Bytes × α)) : (sortByKey l).Perm l := by
  induction l with
  | nil => exact .refl _
  | cons p l ih => exact (insertByKey_perm p _).trans (ih.cons p)

theorem lookup_upsert (k k' : Bytes) (v : JsonValue) : ∀ kvs : List (Bytes × JsonValue),
    (upsert k v kvs).lookup k' = if k' = k then some v else kvs.lookup k'
  | [] => by by_cases hk : k' = k <;> simp [upsert, List.lookup_cons, hk, beq_false_of_ne]
  | (a, b) :: kvs => by
    have ih := lookup_upsert k k' v kvs
    unfold upsert at ih ⊢
    by_cases ha : a = k
    · subst ha
      by_cases hk : k' = a <;> simp_all [List.lookup_cons, beq_false_of_ne]
    · by_cases hk : k' = a <;> simp_all [List.lookup_cons, beq_false_of_ne]

theorem lookup_foldl_upsert_of_not_mem {k : Bytes} (g : Bytes → JsonValue) : ∀ (L : List (Bytes × Bytes))
    (acc : List (Bytes × JsonValue)), k ∉ L.map Prod.fst →
      (L.foldl (fun acc p => upsert p.1 (g p.2) acc) acc).lookup k = acc.lookup k
  | [], _, _ => rfl
  | p :: L, acc, h => by
    simp only [List.map_cons, List.mem_cons, not_or] at h
    rw [List.foldl_cons, lookup_foldl_upsert_of_not_mem g L _ h.2, lookup_upsert, if_neg h.1]

/-- In the object decoded from distinct keys, a key finds its own value. -/
theorem lookup_foldl_upsert {k v : Bytes} (g : Bytes → JsonValue) : ∀ (L : List (Bytes × Bytes))
    (acc : List (Bytes × JsonValue)), (L.map Prod.fst).Nodup → (k, v) ∈ L →
      (L.foldl (fun acc p => upsert p.1 (g p.2) acc) acc).lookup k = some (g v)
  | [], _, _, h => nomatch h
  | p :: L, acc, hd, h => by
    rw [List.map_cons, List.nodup_cons] at hd
    rw [List.foldl_cons]
    rcases List.mem_cons.mp h with rfl | h
    · rw [lookup_foldl_upsert_of_not_mem g L _ hd.1, lookup_upsert, if_pos rfl]
    · exact lookup_foldl_upsert g L _ hd.2 h

theorem skipWs_of_not_ws {b : UInt8} (h : isWs b = false) (s : Bytes) : skipWs (b :: s) = b :: s :=
  List.dropWhile_cons_of_neg (by simp [h])

section Object
variable (fl : FloatLib)

theorem encodeString_append (v tail : Bytes) :
    encodeString v ++ tail = 34 :: (encodeBody v.length v ++ 34 :: tail) := by
  simp [encodeString]

theorem skipWs_members (p : Bytes × Bytes) (L : List (Bytes × Bytes)) (tail : Bytes) :
    skipWs ([44].intercalate ((p :: L).map fun p => encodeString p.1 ++ [58] ++ encodeString p.2) ++
      tail) = [44].intercalate ((p :: L).map fun p => encodeString p.1 ++ [58] ++ encodeString p.2) ++
        tail := by
  obtain ⟨y, hy⟩ := intercalate_cons_eq (encodeString p.1 ++ [58] ++ encodeString p.2)
    (L.map fun p => encodeString p.1 ++ [58] ++ encodeString p.2)
  rw [List.map_cons, hy, List.append_assoc, List.append_assoc, List.append_assoc, encodeString_append,
    List.cons_append, skipWs_of_not_ws (rfl : isWs 34 = false)]

theorem parseValue_encodeString (v : Bytes) (n : Nat) (tail : Bytes) :
    parseValue fl (n + 1) (encodeString v ++ tail) = some (.string (readString v), tail) := by
  rw [encodeString_append]
  simp only [parseValue, skipWs_of_not_ws (rfl : isWs 34 = false)]
  simp [parseString_encodeBody_any]

theorem parseMembers_member_eq {k : Bytes} (hk : ValidUTF8 k) (v : Bytes) (n : Nat)
    (acc : List (Bytes × JsonValue)) (c : UInt8) (hc : isWs c = false) (rest : Bytes) :
    parseMembers fl (n + 2) acc (encodeString k ++ [58] ++ encodeString v ++ c :: rest) =
      match c :: rest with
      | 44 :: rest => parseMembers fl (n + 1) (upsert k (.string (readString v)) acc) (skipWs rest)
      | 125 :: rest => some (.object (upsert k (.string (readString v)) acc), rest)
      | _ => none := by
  rw [List.append_assoc, List.append_assoc, encodeString_append, parseMembers.eq_2]
  simp only [List.singleton_append, parseString_encodeBody hk, Option.bind_eq_bind, Option.some_bind,
    skipWs_of_not_ws (rfl : isWs 58 = false), parseValue_encodeString fl v,
    skipWs_of_not_ws hc]
  rfl

/-- A member followed by `,`: the decoder stores it and goes on with the next. -/
theorem parseMembers_member_comma {k : Bytes} (hk : ValidUTF8 k) (v : Bytes) (n : Nat)
    (acc : List (Bytes × JsonValue)) (rest : Bytes) :
    parseMembers fl (n + 2) acc (encodeString k ++ [58] ++ encodeString v ++ 44 :: rest) =
      parseMembers fl (n + 1) (upsert k (.string (readString v)) acc) (skipWs rest) :=
  parseMembers_member_eq fl hk v n acc 44 rfl rest

/-- A member followed by `}`: the decoder stores it and closes the object. -/
theorem parseMembers_member_close {k : Bytes} (hk : ValidUTF8 k) (v : Bytes) (n : Nat)
    (acc : List (Bytes × JsonValue)) (rest : Bytes) :
    parseMembers fl (n + 2) acc (encodeString k ++ [58] ++ encodeString v ++ 125 :: rest) =
      some (.object (upsert k (.string (readString v)) acc), rest) :=
  parseMembers_member_eq fl hk v n acc 125 rfl rest

/-- The members of a map of strings, as mapEncoder writes them between the braces. -/
theorem parseMembers_encoded : ∀ (L : List (Bytes × Bytes)), L ≠ [] →
    (∀ p ∈ L, ValidUTF8 p.1) → ∀ (n : Nat) (acc : List (Bytes × JsonValue))
      (tail : Bytes), L.length ≤ n →
    parseMembers fl (n + 1) acc
        ([44].intercalate (L.map fun p => encodeString p.1 ++ [58] ++ encodeString p.2) ++ 125 :: tail) =
      some (.object (L.foldl (fun acc p => upsert p.1 (.string (readString p.2)) acc) acc), tail)
  | [], h, _, _, _, _, _ => absurd rfl h
  | [p], _, hv, n, acc, tail, hn => by
    obtain ⟨n, rfl⟩ : ∃ k, n = k + 1 := ⟨n - 1, by simp at hn; omega⟩
    rw [List.map_singleton, intercalate_singleton,
      parseMembers_member_close fl (hv p (.head _)) p.2]
    rfl
  | p :: q :: L, _, hv, n, acc, tail, hn => by
    obtain ⟨n, rfl⟩ : ∃ k, n = k + 1 := ⟨n - 1, by simp at hn; omega⟩
    rw [List.map_cons, intercalate_cons_of_ne_nil _ (by simp), List.append_assoc, List.cons_append,
      parseMembers_member_comma fl (hv p (.head _)) p.2, skipWs_members,
      parseMembers_encoded (q :: L) (List.cons_ne_nil _ _) (fun p hp => hv p (.tail _ hp)) n _ tail
        (by simp at hn ⊢; omega)]
    rfl

theorem parseValue_object (n : Nat) (X : Bytes) :
    parseValue fl (n + 2) (123 :: 34 :: X) = parseMembers fl (n + 1) [] (34 :: X) := rfl

/-- json.Unmarshal of what json.Marshal writes for a nonempty map of strings with valid keys:
an object holding its members in key order, each value as the decoder reads it back. -/
theorem unmarshal_encodeObject (kvs : List (Bytes × Bytes)) (hne : kvs ≠ [])
    (hv : ∀ p ∈ kvs, ValidUTF8 p.1) :
    unmarshal fl (encodeObject (kvs.map fun p => (p.1, encodeString p.2))) =
      some (.object ((sortByKey kvs).foldl (fun acc p => upsert p.1 (.string (readString p.2)) acc) [])) := by
  have hperm := sortByKey_perm kvs
  obtain ⟨p, L, hp⟩ : ∃ p L, sortByKey kvs = p :: L :=
    match sortByKey kvs, hperm with
    | p :: L, _ => ⟨p, L, rfl⟩
    | [], h => absurd h.symm.eq_nil hne
  have hv' : ∀ q ∈ p :: L, ValidUTF8 q.1 := fun q hq => hv q (hperm.subset (hp ▸ hq))
  have hobj : encodeObject (kvs.map fun p => (p.1, encodeString p.2)) = 123 :: ([44].intercalate
      ((p :: L).map fun p => encodeString p.1 ++ [58] ++ encodeString p.2) ++ [125]) := by
    simp only [encodeObject, sortByKey_map, List.map_map, hp]; rfl
  have hlen := length_le_intercalate ((p :: L).map fun p => encodeString p.1 ++ [58] ++
    encodeString p.2) fun x hx => by obtain ⟨q, -, rfl⟩ := List.mem_map.mp hx; simp [encodeString]
  rw [List.length_map] at hlen
  have hhead : ∃ X, [44].intercalate ((p :: L).map fun p => encodeString p.1 ++ [58] ++
      encodeString p.2) ++ [125] = 34 :: X := by
    obtain ⟨y, hy⟩ := intercalate_cons_eq (encodeString p.1 ++ [58] ++ encodeString p.2)
      (L.map fun p => encodeString p.1 ++ [58] ++ encodeString p.2)
    rw [List.map_cons, hy, List.append_assoc, List.append_assoc, List.append_assoc,
      encodeString_append]
    exact ⟨_, rfl⟩
  rw [hp, unmarshal, hobj]
  obtain ⟨N, hN⟩ : ∃ N, 2 * (123 :: ([44].intercalate ((p :: L).map fun p => encodeString p.1 ++ [58] ++
      encodeString p.2) ++ [125])).length + 2 = N + 2 ∧ (p :: L).length ≤ N :=
    ⟨_, rfl, by simp only [List.length_cons, List.length_append] at hlen ⊢; omega⟩
  obtain ⟨X, hX⟩ := hhead
  rw [hN.1, hX, parseValue_object, ← hX,
    parseMembers_encoded fl (p :: L) (List.cons_ne_nil _ _) hv' N [] [] hN.2]
  rfl

end Object

end GoSecrets.Json
