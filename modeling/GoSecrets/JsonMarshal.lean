import GoSecrets.JsonRoundTrip
import GoSecrets.Convert

/-! json.Marshal and json.Unmarshal as extractFragment uses them: Unmarshal reads back what
Marshal writes for a well-formed value, and every value Unmarshal accepts is well formed. -/
namespace GoSecrets.Json

/-- What may follow a value inside the text json.Marshal writes: nothing, `,`, `]` or `}`. -/
def Delimited : Bytes → Prop
  | [] => True
  | b :: _ => b = 44 ∨ b = 93 ∨ b = 125

section Marshal
variable (fl : FloatLib)

/-- A float64 whose json.Marshal text is a number literal that the scanner takes whole and
ParseFloat reads back. -/
structure NumberRoundTrips (x : Nat) : Prop where
  head : ∃ b rest, fl.marshalFloat x = b :: rest ∧ (b = 45 ∨ isDigit b = true)
  scan : ∀ tail, Delimited tail → scanNumber (fl.marshalFloat x ++ tail) = some (fl.marshalFloat x, tail)
  parse : fl.parseFloat (fl.marshalFloat x) 64 = .ok x

/-- The decoded values whose json.Marshal text json.Unmarshal reads back: valid strings and
keys, distinct keys, and numbers whose text ParseFloat inverts. -/
inductive JsonValue.WF : JsonValue → Prop
  | null : JsonValue.WF .null
  | bool (b : Bool) : JsonValue.WF (.bool b)
  | number {x : Nat} (h : NumberRoundTrips fl x) : JsonValue.WF (.number x)
  | string {s : Bytes} (h : ValidUTF8 s) : JsonValue.WF (.string s)
  | array {xs : List JsonValue} (h : ∀ x ∈ xs, JsonValue.WF x) : JsonValue.WF (.array xs)
  | object {kvs : List (Bytes × JsonValue)} (hd : (kvs.map Prod.fst).Nodup)
      (hk : ∀ p ∈ kvs, ValidUTF8 p.1) (h : ∀ p ∈ kvs, JsonValue.WF p.2) : JsonValue.WF (.object kvs)

end Marshal

mutual
/-- A decoded value with the members of every object in the order json.Marshal writes them. -/
def JsonValue.sortKeys : JsonValue → JsonValue
  | .array xs => .array (sortKeysElements xs)
  | .object kvs => .object (sortByKey (sortKeysMembers kvs))
  | v => v
def sortKeysElements : List JsonValue → List JsonValue
  | [] => []
  | x :: xs => x.sortKeys :: sortKeysElements xs
def sortKeysMembers : List (Bytes × JsonValue) → List (Bytes × JsonValue)
  | [] => []
  | (k, v) :: kvs => (k, v.sortKeys) :: sortKeysMembers kvs
end

theorem sortKeysElements_eq : ∀ xs : List JsonValue, sortKeysElements xs = xs.map JsonValue.sortKeys
  | [] => rfl
  | x :: xs => by rw [sortKeysElements, sortKeysElements_eq xs]; rfl

theorem sortKeysMembers_eq : ∀ kvs : List (Bytes × JsonValue),
    sortKeysMembers kvs = kvs.map fun p => (p.1, p.2.sortKeys)
  | [] => rfl
  | (k, v) :: kvs => by rw [sortKeysMembers, sortKeysMembers_eq kvs]; rfl

theorem marshalElements_eq (fl : FloatLib) : ∀ xs : List JsonValue, marshalElements fl xs = xs.map (marshal fl)
  | [] => rfl
  | x :: xs => by rw [marshalElements, marshalElements_eq fl xs]; rfl

theorem marshalMembers_eq (fl : FloatLib) : ∀ kvs : List (Bytes × JsonValue),
    marshalMembers fl kvs = kvs.map fun p => (p.1, marshal fl p.2)
  | [] => rfl
  | (k, v) :: kvs => by rw [marshalMembers, marshalMembers_eq fl kvs]; rfl

/-! ### The order of map keys -/

theorem bytesLt_irrefl : ∀ a : Bytes, bytesLt a a = false
  | [] => rfl
  | x :: xs => by
    have hx : ¬ x < x := Nat.lt_irrefl x.toNat
    simp [bytesLt, bytesLt_irrefl xs, hx]

theorem bytesLt_trans : ∀ {a b c : Bytes}, bytesLt a b = true → bytesLt b c = true → bytesLt a c = true
  | [], [], _, h, _ | _ :: _, [], _, h, _ => by simp [bytesLt] at h
  | _, _ :: _, [], _, h => by simp [bytesLt] at h
  | [], _ :: _, _ :: _, _, _ => rfl
  | x :: xs, y :: ys, z :: zs, h1, h2 => by
    simp only [bytesLt, Bool.or_eq_true, Bool.and_eq_true, decide_eq_true_eq, beq_iff_eq] at h1 h2 ⊢
    rcases h1 with h1 | ⟨rfl, h1⟩ <;> rcases h2 with h2 | ⟨rfl, h2⟩
    · exact .inl (Nat.lt_trans h1 h2)
    · exact .inl h1
    · exact .inl h2
    · exact .inr ⟨rfl, bytesLt_trans h1 h2⟩

theorem bytesLt_total : ∀ {a b : Bytes}, a ≠ b → bytesLt a b = true ∨ bytesLt b a = true
  | [], [], h => absurd rfl h
  | [], _ :: _, _ => .inl rfl
  | _ :: _, [], _ => .inr rfl
  | x :: xs, y :: ys, h => by
    simp only [bytesLt, Bool.or_eq_true, Bool.and_eq_true, decide_eq_true_eq, beq_iff_eq]
    rcases Nat.lt_trichotomy x.toNat y.toNat with hxy | hxy | hxy
    · exact .inl (.inl hxy)
    · obtain rfl := UInt8.toNat.inj hxy
      rcases bytesLt_total (fun he : xs = ys => h (he ▸ rfl)) with h' | h'
      · exact .inl (.inr ⟨rfl, h'⟩)
      · exact .inr (.inr ⟨rfl, h'⟩)
    · exact .inr (.inl hxy)

section KeyOrder
variable {α : Type}

theorem insertByKey_sorted {p : Bytes × α} : ∀ {l : List (Bytes × α)},
    l.Pairwise (fun a b => bytesLt a.1 b.1 = true) → p.1 ∉ l.map Prod.fst →
      (insertByKey p l).Pairwise (fun a b => bytesLt a.1 b.1 = true)
  | [], _, _ => List.pairwise_singleton _ _
  | q :: l, hl, hp => by
    rw [List.pairwise_cons] at hl
    rw [List.map_cons, List.mem_cons, not_or] at hp
    unfold insertByKey
    split
    · rename_i hpq
      refine List.Pairwise.cons (fun r hr => ?_) (List.pairwise_cons.mpr hl)
      rcases List.mem_cons.mp hr with rfl | hr
      · exact hpq
      · exact bytesLt_trans hpq (hl.1 r hr)
    · rename_i hpq
      have hqp := (bytesLt_total hp.1).resolve_left hpq
      refine List.Pairwise.cons (fun r hr => ?_) (insertByKey_sorted hl.2 hp.2)
      rcases List.mem_cons.mp ((insertByKey_perm p l).subset hr) with rfl | hr
      · exact hqp
      · exact hl.1 r hr

theorem sortByKey_sorted : ∀ l : List (Bytes × α), (l.map Prod.fst).Nodup →
    (sortByKey l).Pairwise (fun a b => bytesLt a.1 b.1 = true)
  | [], _ => .nil
  | p :: l, hd => by
    rw [List.map_cons, List.nodup_cons] at hd
    exact insertByKey_sorted (sortByKey_sorted l hd.2)
      fun h => hd.1 (((sortByKey_perm l).map Prod.fst).subset h)

theorem sortByKey_of_sorted : ∀ {l : List (Bytes × α)},
    l.Pairwise (fun a b => bytesLt a.1 b.1 = true) → sortByKey l = l
  | [], _ => rfl
  | p :: l, h => by
    change insertByKey p (sortByKey l) = p :: l
    rw [sortByKey_of_sorted (List.pairwise_cons.mp h).2]
    cases l with
    | nil => rfl
    | cons q l => exact if_pos ((List.pairwise_cons.mp h).1 q (.head _))

theorem sortByKey_sortByKey {l : List (Bytes × α)} (hd : (l.map Prod.fst).Nodup) :
    sortByKey (sortByKey l) = sortByKey l :=
  sortByKey_of_sorted (sortByKey_sorted l hd)

end KeyOrder

section Parse
variable (fl : FloatLib)

/-- The decoder, given more fuel than the text's length, reads `v` back from its json.Marshal
text followed by any delimited tail, with the members of every object in key order. -/
def ReadsBack (v : JsonValue) : Prop :=
  ∀ n tail, (marshal fl v).length < n → Delimited tail →
    parseValue fl n (marshal fl v ++ tail) = some (v.sortKeys, tail)

theorem digit_not_ws {b : UInt8} (h : isDigit b = true) : isWs b = false ∧ b ≠ 93 := by
  simp only [isDigit, Bool.and_eq_true, decide_eq_true_eq] at h
  have hb : ∀ c : UInt8, (c.toNat < 48 ∨ 57 < c.toNat) → b ≠ c := fun c hc he => by subst he; omega
  simp [isWs, hb 32 (by decide), hb 9 (by decide), hb 10 (by decide), hb 13 (by decide),
    hb 93 (by decide)]

theorem marshal_cons {v : JsonValue} (hv : v.WF fl) :
    ∃ b rest, marshal fl v = b :: rest ∧ isWs b = false ∧ b ≠ 93 := by
  cases hv with
  | null => exact ⟨_, _, rfl, rfl, by decide⟩
  | bool b => cases b <;> exact ⟨_, _, rfl, rfl, by decide⟩
  | number h =>
    obtain ⟨b, rest, he, hb⟩ := h.head
    rcases hb with rfl | hb
    · exact ⟨_, rest, he, rfl, by decide⟩
    · exact ⟨b, rest, he, digit_not_ws hb⟩
  | string h => exact ⟨_, _, rfl, rfl, by decide⟩
  | array h => exact ⟨_, _, rfl, rfl, by decide⟩
  | object hd hk h => exact ⟨_, _, rfl, rfl, by decide⟩

theorem parseElements_marshal : ∀ (xs : List JsonValue), xs ≠ [] →
    (∀ x ∈ xs, ReadsBack fl x) →
    ∀ n acc tail, ([44].intercalate (xs.map (marshal fl))).length + 1 < n →
      parseElements fl n acc ([44].intercalate (xs.map (marshal fl)) ++ 93 :: tail) =
        some (.array (acc ++ xs.map JsonValue.sortKeys), tail)
  | [], h, _, _, _, _, _ => absurd rfl h
  | [x], _, ih, n, acc, tail, hn => by
    rw [List.map_singleton, intercalate_singleton] at hn ⊢
    obtain ⟨n, rfl⟩ : ∃ k, n = k + 1 := ⟨n - 1, by omega⟩
    rw [parseElements.eq_2]
    simp only [ih x (.head _) n (93 :: tail) (by omega) (by simp [Delimited]), Option.bind_eq_bind,
      Option.some_bind, skipWs_of_not_ws (rfl : isWs 93 = false)]
    rfl
  | x :: y :: xs, _, ih, n, acc, tail, hn => by
    rw [List.map_cons, intercalate_cons_of_ne_nil _ (by simp)] at hn ⊢
    simp only [List.length_append, List.length_cons] at hn
    obtain ⟨n, rfl⟩ : ∃ k, n = k + 1 := ⟨n - 1, by omega⟩
    rw [List.append_assoc, List.cons_append, parseElements.eq_2]
    simp only [ih x (.head _) n (44 :: ([44].intercalate ((y :: xs).map (marshal fl)) ++ 93 :: tail))
      (by omega) (by simp [Delimited]), Option.bind_eq_bind, Option.some_bind,
      skipWs_of_not_ws (rfl : isWs 44 = false)]
    rw [parseElements_marshal (y :: xs) (List.cons_ne_nil _ _) (fun z hz => ih z (.tail _ hz)) n _ tail
      (by omega)]
    simp

theorem upsert_of_not_mem {k : Bytes} {v : JsonValue} {acc : List (Bytes × JsonValue)}
    (h : k ∉ acc.map Prod.fst) : upsert k v acc = acc ++ [(k, v)] := by
  rw [upsert, List.filter_eq_self.mpr]
  intro p hp
  have : p.1 ≠ k := fun he => h (he ▸ List.mem_map_of_mem Prod.fst hp)
  simpa using this

theorem key_not_mem_of_nodup {acc : List (Bytes × JsonValue)} {p : Bytes × JsonValue}
    {L : List (Bytes × JsonValue)} (hd : ((acc ++ p :: L).map Prod.fst).Nodup) : p.1 ∉ acc.map Prod.fst := by
  rw [List.map_append, List.map_cons] at hd
  exact fun h => (List.pairwise_append.mp hd).2.2 _ h p.1 (.head _) rfl

theorem parseMembers_member {k : Bytes} {v : JsonValue} (hk : ValidUTF8 k)
    (hv : ReadsBack fl v)
    (n : Nat) (acc : List (Bytes × JsonValue)) (c : UInt8) (hc : c = 44 ∨ c = 125) (rest : Bytes)
    (hn : (marshal fl v).length < n) :
    parseMembers fl (n + 1) acc (encodeString k ++ [58] ++ marshal fl v ++ c :: rest) =
      match c :: rest with
      | 44 :: rest => parseMembers fl n (upsert k v.sortKeys acc) (skipWs rest)
      | 125 :: rest => some (.object (upsert k v.sortKeys acc), rest)
      | _ => none := by
  have hws : isWs c = false := by rcases hc with rfl | rfl <;> rfl
  rw [List.append_assoc, List.append_assoc, encodeString_append, parseMembers.eq_2]
  simp only [List.singleton_append, parseString_encodeBody hk, Option.bind_eq_bind, Option.some_bind,
    skipWs_of_not_ws (rfl : isWs 58 = false), hv n (c :: rest) hn (by simpa [Delimited] using Or.imp_right Or.inr hc),
    skipWs_of_not_ws hws]
  rfl

theorem parseMembers_value_comma {k : Bytes} {v : JsonValue} (hk : ValidUTF8 k)
    (hv : ReadsBack fl v)
    (n : Nat) (acc : List (Bytes × JsonValue)) (rest : Bytes) (hn : (marshal fl v).length < n) :
    parseMembers fl (n + 1) acc (encodeString k ++ [58] ++ marshal fl v ++ 44 :: rest) =
      parseMembers fl n (upsert k v.sortKeys acc) (skipWs rest) :=
  parseMembers_member fl hk hv n acc 44 (.inl rfl) rest hn

theorem parseMembers_value_close {k : Bytes} {v : JsonValue} (hk : ValidUTF8 k)
    (hv : ReadsBack fl v)
    (n : Nat) (acc : List (Bytes × JsonValue)) (rest : Bytes) (hn : (marshal fl v).length < n) :
    parseMembers fl (n + 1) acc (encodeString k ++ [58] ++ marshal fl v ++ 125 :: rest) =
      some (.object (upsert k v.sortKeys acc), rest) :=
  parseMembers_member fl hk hv n acc 125 (.inr rfl) rest hn

theorem skipWs_marshalMembers (p : Bytes × JsonValue) (L : List (Bytes × JsonValue)) (tail : Bytes) :
    skipWs ([44].intercalate ((p :: L).map fun p => encodeString p.1 ++ [58] ++ marshal fl p.2) ++ tail) =
      [44].intercalate ((p :: L).map fun p => encodeString p.1 ++ [58] ++ marshal fl p.2) ++ tail := by
  obtain ⟨y, hy⟩ := intercalate_cons_eq (encodeString p.1 ++ [58] ++ marshal fl p.2)
    (L.map fun p => encodeString p.1 ++ [58] ++ marshal fl p.2)
  rw [List.map_cons, hy, List.append_assoc, List.append_assoc, List.append_assoc, encodeString_append,
    List.cons_append, skipWs_of_not_ws (rfl : isWs 34 = false)]

theorem parseMembers_marshal : ∀ (L : List (Bytes × JsonValue)), L ≠ [] → (∀ p ∈ L, ValidUTF8 p.1) →
    (∀ p ∈ L, ReadsBack fl p.2) →
    ∀ (acc : List (Bytes × JsonValue)), ((acc ++ L).map Prod.fst).Nodup → ∀ n tail,
      ([44].intercalate (L.map fun p => encodeString p.1 ++ [58] ++ marshal fl p.2)).length + 1 < n →
      parseMembers fl n acc ([44].intercalate (L.map fun p => encodeString p.1 ++ [58] ++ marshal fl p.2) ++
        125 :: tail) = some (.object (acc ++ L.map fun p => (p.1, p.2.sortKeys)), tail)
  | [], h, _, _, _, _, _, _, _ => absurd rfl h
  | [p], _, hk, hv, acc, hd, n, tail, hn => by
    rw [List.map_singleton, intercalate_singleton] at hn ⊢
    simp only [encodeString, List.length_append, List.length_cons, List.length_singleton] at hn
    obtain ⟨n, rfl⟩ : ∃ m, n = m + 1 := ⟨n - 1, by omega⟩
    rw [parseMembers_value_close fl (hk p (.head _)) (hv p (.head _)) n acc tail (by omega),
      upsert_of_not_mem (key_not_mem_of_nodup hd)]
    rfl
  | p :: q :: L, _, hk, hv, acc, hd, n, tail, hn => by
    rw [List.map_cons, intercalate_cons_of_ne_nil _ (by simp)] at hn ⊢
    simp only [encodeString, List.length_append, List.length_cons, List.length_singleton] at hn
    obtain ⟨n, rfl⟩ : ∃ m, n = m + 1 := ⟨n - 1, by omega⟩
    rw [List.append_assoc, List.cons_append,
      parseMembers_value_comma fl (hk p (.head _)) (hv p (.head _)) n acc _ (by omega),
      upsert_of_not_mem (key_not_mem_of_nodup hd)]
    rw [skipWs_marshalMembers, parseMembers_marshal (q :: L) (List.cons_ne_nil _ _)
      (fun r hr => hk r (.tail _ hr)) (fun r hr => hv r (.tail _ hr)) _ (by simpa using hd) n tail
      (by simp only [encodeString, List.length_append] at hn ⊢; omega)]
    simp

theorem not_cons_prefix_of_ne {a b : UInt8} (h : a ≠ b) (l l' : Bytes) : ¬ (a :: l) <+: (b :: l') := by
  rw [List.cons_prefix_cons]; exact fun h' => h h'.1

theorem parseValue_scalar {b : UInt8} (hws : isWs b = false) (h1 : b ≠ 123) (h2 : b ≠ 91) (h3 : b ≠ 34)
    (n : Nat) (rest : Bytes) :
    parseValue fl (n + 1) (b :: rest) =
      if [116, 114, 117, 101] <+: b :: rest then some (.bool true, rest.drop 3)
      else if [102, 97, 108, 115, 101] <+: b :: rest then some (.bool false, rest.drop 4)
      else if [110, 117, 108, 108] <+: b :: rest then some (.null, rest.drop 3)
      else (do
        let (lit, rest) ← scanNumber (b :: rest)
        let x ← (fl.parseFloat lit 64).toOption
        pure (.number x, rest)) := by
  simp only [parseValue, skipWs_of_not_ws hws]
  rw [if_neg h1, if_neg h2, if_neg h3]
  rfl

theorem number_head {b : UInt8} (hb : b = 45 ∨ isDigit b = true) :
    isWs b = false ∧ b ≠ 123 ∧ b ≠ 91 ∧ b ≠ 34 ∧ b ≠ 116 ∧ b ≠ 102 ∧ b ≠ 110 := by
  rcases hb with rfl | hb
  · decide
  · simp only [isDigit, Bool.and_eq_true, decide_eq_true_eq] at hb
    have hne : ∀ c : UInt8, (c.toNat < 48 ∨ 57 < c.toNat) → b ≠ c := fun c hc he => by subst he; omega
    exact ⟨(digit_not_ws (by simp [isDigit, hb])).1, hne 123 (by decide), hne 91 (by decide),
      hne 34 (by decide), hne 116 (by decide), hne 102 (by decide), hne 110 (by decide)⟩

/-- json.Unmarshal's parser reads back what json.Marshal writes for a well-formed value, with
the members of every object in key order, and stops right after it. -/
theorem parseValue_marshal {v : JsonValue} (hv : v.WF fl) : ReadsBack fl v := by
  induction hv with
  | null =>
    intro n tail hn _
    obtain ⟨n, rfl⟩ : ∃ m, n = m + 1 := ⟨n - 1, by omega⟩
    show parseValue fl (n + 1) (110 :: 117 :: 108 :: 108 :: tail) = some (.null, tail)
    rw [parseValue_scalar fl (rfl : isWs 110 = false) (by decide) (by decide) (by decide),
      if_neg (not_cons_prefix_of_ne (by decide) _ _),
      if_neg (not_cons_prefix_of_ne (by decide) _ _), if_pos ⟨tail, rfl⟩]
    rfl
  | bool b =>
    intro n tail hn _
    obtain ⟨n, rfl⟩ : ∃ m, n = m + 1 := ⟨n - 1, by omega⟩
    cases b
    · show parseValue fl (n + 1) (102 :: 97 :: 108 :: 115 :: 101 :: tail) = some (.bool false, tail)
      rw [parseValue_scalar fl (rfl : isWs 102 = false) (by decide) (by decide) (by decide),
        if_neg (not_cons_prefix_of_ne (by decide) _ _), if_pos ⟨tail, rfl⟩]
      rfl
    · show parseValue fl (n + 1) (116 :: 114 :: 117 :: 101 :: tail) = some (.bool true, tail)
      rw [parseValue_scalar fl (rfl : isWs 116 = false) (by decide) (by decide) (by decide), if_pos ⟨tail, rfl⟩]
      rfl
  | @number x h =>
    intro n tail hn ht
    obtain ⟨n, rfl⟩ : ∃ m, n = m + 1 := ⟨n - 1, by omega⟩
    obtain ⟨b, rest, he, hb⟩ := h.head
    obtain ⟨hws, h1, h2, h3, h4, h5, h6⟩ := number_head hb
    have hscan := h.scan tail ht
    have hparse := h.parse
    show parseValue fl (n + 1) (fl.marshalFloat x ++ tail) = some (.number x, tail)
    rw [he] at hscan hparse ⊢
    rw [List.cons_append] at hscan ⊢
    rw [parseValue_scalar fl hws h1 h2 h3, if_neg (not_cons_prefix_of_ne (Ne.symm h4) _ _),
      if_neg (not_cons_prefix_of_ne (Ne.symm h5) _ _), if_neg (not_cons_prefix_of_ne (Ne.symm h6) _ _)]
    simp [hscan, hparse, Except.toOption]
  | @string s h =>
    intro n tail hn _
    obtain ⟨n, rfl⟩ : ∃ m, n = m + 1 := ⟨n - 1, by omega⟩
    exact (parseValue_encodeString fl s n tail).trans (by rw [readString_of_valid h]; rfl)
  | @array xs h ih =>
    intro n tail hn _
    obtain ⟨n, rfl⟩ : ∃ m, n = m + 1 := ⟨n - 1, by omega⟩
    simp only [marshal, marshalElements_eq, List.length_append, List.length_singleton] at hn ⊢
    cases xs with
    | nil => rfl
    | cons x xs =>
      obtain ⟨b, r, hx, hws, h93⟩ := marshal_cons fl (h x (.head _))
      obtain ⟨y, hy⟩ := intercalate_cons_eq (marshal fl x) (xs.map (marshal fl))
      have hskip : skipWs ([44].intercalate ((x :: xs).map (marshal fl)) ++ [93] ++ tail) =
          [44].intercalate ((x :: xs).map (marshal fl)) ++ 93 :: tail := by
        rw [List.map_cons, hy, hx]; simp [skipWs_of_not_ws hws]
      simp only [parseValue, List.singleton_append, List.cons_append, List.nil_append,
        skipWs_of_not_ws (rfl : isWs 91 = false)]
      rw [if_neg (by decide), if_true, hskip]
      split
      · rename_i rest' heq
        rw [List.map_cons, hy, hx] at heq
        exact absurd (List.cons.inj heq).1 h93
      · rw [parseElements_marshal fl (x :: xs) (List.cons_ne_nil _ _) ih n [] tail (by omega)]
        simp [JsonValue.sortKeys, sortKeysElements_eq]
  | @object kvs hd hk h ih =>
    intro n tail hn _
    obtain ⟨n, rfl⟩ : ∃ m, n = m + 1 := ⟨n - 1, by omega⟩
    have hperm := sortByKey_perm kvs
    have hsort : JsonValue.sortKeys (.object kvs) = .object ((sortByKey kvs).map fun p => (p.1, p.2.sortKeys)) := by
      rw [JsonValue.sortKeys, sortKeysMembers_eq, sortByKey_map]
    simp only [marshal, encodeObject, marshalMembers_eq, sortByKey_map, List.map_map, Function.comp_def,
      List.length_append, List.length_singleton] at hn ⊢
    rw [hsort]
    cases hL : sortByKey kvs with
    | nil => rfl
    | cons p L =>
      rw [hL] at hn
      simp only [parseValue, List.singleton_append, List.cons_append, List.nil_append,
        skipWs_of_not_ws (rfl : isWs 123 = false)]
      rw [if_true, List.append_assoc, List.singleton_append, skipWs_marshalMembers]
      split
      · rename_i rest' heq
        obtain ⟨y, hy⟩ := intercalate_cons_eq (encodeString p.1 ++ [58] ++ marshal fl p.2)
          (L.map fun p => encodeString p.1 ++ [58] ++ marshal fl p.2)
        rw [List.map_cons, hy, List.append_assoc, List.append_assoc, List.append_assoc, encodeString_append] at heq
        exact absurd (List.cons.inj heq).1 (by decide)
      · have hmem : ∀ q ∈ p :: L, q ∈ kvs := fun q hq => hperm.subset (hL ▸ hq)
        rw [parseMembers_marshal fl (p :: L) (List.cons_ne_nil _ _) (fun q hq => hk q (hmem q hq))
          (fun q hq => ih q (hmem q hq)) [] (by simpa [← hL] using (hperm.map Prod.fst).nodup_iff.mpr hd)
          n tail (by omega)]
        rfl

end Parse

/-! ### Sample secrets -/

/-- Database settings, their keys out of order. -/
def dbSecret : JsonValue :=
  .object [(ascii "user", .string (ascii "admin")), (ascii "host", .string (ascii "h"))]

/-- A secret with a nested object whose keys are out of order, and an array. -/
def nestedSecret : JsonValue :=
  .object [(ascii "db", dbSecret), (ascii "tags", .array [.string (ascii "x"), .bool true, .null])]

/-- The text of nestedSecret as a client may write it, with spaces. -/
def nestedSecretText : Bytes :=
  ascii "\x7b\"db\": \x7b\"user\": \"admin\", \"host\": \"h\"\x7d, \"tags\": [\"x\", true, null]\x7d"

theorem nestedSecret_wf (fl : FloatLib) : nestedSecret.WF fl := by
  refine .object (by decide) ?_ ?_ <;>
    simp only [nestedSecret, dbSecret, List.forall_mem_cons, List.not_mem_nil, false_implies, implies_true,
      and_true]
  · exact ⟨validUTF8_of_ascii _ (by decide), validUTF8_of_ascii _ (by decide)⟩
  · refine ⟨.object (by decide) ?_ ?_, .array ?_⟩ <;>
      simp only [List.forall_mem_cons, List.not_mem_nil, false_implies, implies_true, and_true]
    · exact ⟨validUTF8_of_ascii _ (by decide), validUTF8_of_ascii _ (by decide)⟩
    · exact ⟨.string (validUTF8_of_ascii _ (by decide)), .string (validUTF8_of_ascii _ (by decide))⟩
    · exact ⟨.string (validUTF8_of_ascii _ (by decide)), .bool true, .null⟩

/-- A float library that knows one number: ParseFloat reads "7" as 7, and json.Marshal
writes 7 as "7". -/
def sevenLib : FloatLib where
  parseFloat s _ := if s = ascii "7" then .ok 7 else .error (.other "strconv.ParseFloat")
  toInt64 x := x
  fromInt64 i := i.toNat
  eq a b := a == b
  formatFloat _ := ascii "7"
  formatInt _ := ascii "7"
  marshalFloat _ := ascii "7"

theorem sevenLib_parseFloat_roundTrips (lit : Bytes) (x : Nat) (h : sevenLib.parseFloat lit 64 = .ok x) :
    NumberRoundTrips sevenLib x := by
  have hx : x = 7 := by
    by_cases hl : lit = ascii "7"
    · simpa [sevenLib, hl] using h.symm
    · simp [sevenLib, hl] at h
  subst hx
  refine ⟨⟨55, [], rfl, .inr rfl⟩, fun tail ht => ?_, rfl⟩
  rcases tail with _ | ⟨b, rest⟩
  · rfl
  · rcases ht with rfl | rfl | rfl <;> rfl

/-- Database settings with a port number. -/
def portSecret : JsonValue := .object [(ascii "port", .number 7), (ascii "host", .string (ascii "h"))]

/-- The text of portSecret as a client may write it. -/
def portSecretText : Bytes := ascii "\x7b\"port\": 7, \"host\": \"h\"\x7d"

theorem portSecret_wf : portSecret.WF sevenLib := by
  refine .object (by decide) ?_ ?_ <;>
    simp only [portSecret, List.forall_mem_cons, List.not_mem_nil, false_implies, implies_true, and_true]
  · exact ⟨validUTF8_of_ascii _ (by decide), validUTF8_of_ascii _ (by decide)⟩
  · exact ⟨.number (sevenLib_parseFloat_roundTrips (ascii "7") 7 rfl), .string (validUTF8_of_ascii _ (by decide))⟩

section RoundTrip
variable (fl : FloatLib)

theorem encodeObject_sortByKey {l : List (Bytes × Bytes)} (hd : (l.map Prod.fst).Nodup) :
    encodeObject (sortByKey l) = encodeObject l := by
  rw [encodeObject, encodeObject, sortByKey_sortByKey hd]

theorem marshal_sortKeys {v : JsonValue} (hv : v.WF fl) : marshal fl v.sortKeys = marshal fl v := by
  induction hv with
  | @array xs _ ih =>
    simp only [JsonValue.sortKeys, marshal, marshalElements_eq, sortKeysElements_eq, List.map_map,
      Function.comp_def]
    rw [List.map_congr_left fun x hx => ih x hx]
  | @object kvs hd _ _ ih =>
    simp only [JsonValue.sortKeys, marshal, marshalMembers_eq, sortKeysMembers_eq]
    rw [← sortByKey_map, List.map_map, encodeObject_sortByKey (by simpa using hd)]
    congr 1
    exact List.map_congr_left fun p hp => by simp [ih p hp]
  | _ => rfl

/-- json.Unmarshal reads back the text json.Marshal writes for a well-formed value: the same
value with the members of every object in key order, which json.Marshal writes as the same text. -/
theorem unmarshal_marshal {v : JsonValue} (hv : v.WF fl) :
    unmarshal fl (marshal fl v) = some v.sortKeys ∧ marshal fl v.sortKeys = marshal fl v := by
  have h := parseValue_marshal fl hv (2 * (marshal fl v).length + 2) [] (by omega) trivial
  rw [List.append_nil] at h
  exact ⟨by rw [unmarshal, h]; rfl, marshal_sortKeys fl hv⟩

end RoundTrip

theorem unmarshal_marshal_portSecret :
    portSecret.WF sevenLib ∧
      (unmarshal sevenLib (marshal sevenLib portSecret) = some portSecret.sortKeys ∧
        marshal sevenLib portSecret.sortKeys = marshal sevenLib portSecret) :=
  ⟨portSecret_wf, unmarshal_marshal _ portSecret_wf⟩

example : marshal Lib.stringsOnly.toFloatLib nestedSecret =
    ascii "\x7b\"db\":\x7b\"host\":\"h\",\"user\":\"admin\"\x7d,\"tags\":[\"x\",true,null]\x7d" := by
  decide


/-! ### What json.Unmarshal accepts -/

theorem eq_ok_of_toOption {ε α : Type} {x : Except ε α} {a : α} (h : x.toOption = some a) :
    x = .ok a := by
  cases x <;> simp_all [Except.toOption]

theorem encodeRune_scalar (r : Nat) : ∃ r', IsScalar r' ∧ encodeRune r' = encodeRune r := by
  by_cases hb : 0x10FFFF < r ∨ (0xD800 ≤ r ∧ r ≤ 0xDFFF)
  · refine ⟨runeError, by unfold IsScalar runeError; omega, ?_⟩
    have h1 : ¬ r ≤ 0x7F := by omega
    have h2 : ¬ r ≤ 0x7FF := by omega
    simp only [encodeRune, h1, h2, hb, if_false, if_true]
    rfl
  · exact ⟨r, by unfold IsScalar; omega, rfl⟩

theorem ValidUTF8.encodeRune_append (r : Nat) {s : Bytes} (h : ValidUTF8 s) :
    ValidUTF8 (encodeRune r ++ s) := by
  obtain ⟨r', hr', he⟩ := encodeRune_scalar r
  exact he ▸ .cons hr' h

theorem encodeRune_toNat {b : UInt8} (hb : b.toNat < 0x80) : encodeRune b.toNat = [b] := by
  rw [encodeRune_ascii hb]; exact congrArg (· :: []) (UInt8.toNat.inj (toNat_toUInt8 (by omega)))

theorem ValidUTF8.ascii_cons {b : UInt8} (hb : b.toNat < 0x80) {s : Bytes} (h : ValidUTF8 s) :
    ValidUTF8 (b :: s) := by
  simpa [encodeRune_toNat hb] using h.encodeRune_append b.toNat

theorem unquoteEscape_rune {b : UInt8} {s d rest : Bytes} (h : unquoteEscape b s = some (d, rest)) :
    ∃ r, d = encodeRune r := by
  cases s with
  | nil => cases h
  | cons c s =>
    rw [unquoteEscape] at h
    by_cases hc : c = 34 ∨ c = 92 ∨ c = 47 ∨ c = 39
    · rw [if_pos hc] at h
      cases h
      exact ⟨_, (encodeRune_toNat (by rcases hc with rfl | rfl | rfl | rfl <;> decide)).symm⟩
    rw [if_neg hc] at h
    by_cases h98 : c = 98
    · rw [if_pos h98] at h; cases h; exact ⟨8, rfl⟩
    rw [if_neg h98] at h
    by_cases h102 : c = 102
    · rw [if_pos h102] at h; cases h; exact ⟨12, rfl⟩
    rw [if_neg h102] at h
    by_cases h110 : c = 110
    · rw [if_pos h110] at h; cases h; exact ⟨10, rfl⟩
    rw [if_neg h110] at h
    by_cases h114 : c = 114
    · rw [if_pos h114] at h; cases h; exact ⟨13, rfl⟩
    rw [if_neg h114] at h
    by_cases h116 : c = 116
    · rw [if_pos h116] at h; cases h; exact ⟨9, rfl⟩
    rw [if_neg h116] at h
    by_cases h117 : c = 117
    · rw [if_pos h117] at h
      split at h
      · cases h
      · dsimp only at h
        split at h
        · split at h
          · split at h <;> cases h <;> exact ⟨_, rfl⟩
          · cases h; exact ⟨_, rfl⟩
        · cases h; exact ⟨_, rfl⟩
    · rw [if_neg h117] at h; cases h

/-- unquote writes valid UTF-8: every invalid byte becomes U+FFFD. -/
theorem unquote_valid : ∀ n s d, unquote n s = some d → ValidUTF8 d
  | 0, _, _, h => by cases h
  | _ + 1, [], _, h => by cases h; exact .nil
  | n + 1, b :: rest, d, h => by
    unfold unquote at h
    split_ifs at h with h1 h2 h3
    · split at h
      · rename_i d' rest' he
        obtain ⟨d'', hd'', rfl⟩ := Option.map_eq_some'.mp h
        obtain ⟨r, rfl⟩ := unquoteEscape_rune he
        exact (unquote_valid n _ _ hd'').encodeRune_append r
      · cases h
    · obtain ⟨d'', hd'', rfl⟩ := Option.map_eq_some'.mp h
      exact (unquote_valid n _ _ hd'').ascii_cons h3
    · obtain ⟨d'', hd'', rfl⟩ := Option.map_eq_some'.mp h
      exact (unquote_valid n _ _ hd'').encodeRune_append _

theorem parseString_valid {s str rest : Bytes} (h : parseString s = some (str, rest)) : ValidUTF8 str := by
  obtain ⟨⟨lit, r⟩, -, h⟩ := Option.bind_eq_some.mp h
  obtain ⟨str', hu, h⟩ := Option.bind_eq_some.mp h
  cases h
  exact unquote_valid _ _ _ hu

theorem mem_upsert {k : Bytes} {v : JsonValue} {acc : List (Bytes × JsonValue)} {p : Bytes × JsonValue}
    (h : p ∈ upsert k v acc) : p ∈ acc ∨ p = (k, v) := by
  rw [upsert, List.mem_append, List.mem_filter, List.mem_singleton] at h
  exact h.imp_left And.left

theorem upsert_nodup {k : Bytes} {v : JsonValue} {acc : List (Bytes × JsonValue)}
    (h : (acc.map Prod.fst).Nodup) : ((upsert k v acc).map Prod.fst).Nodup := by
  rw [upsert, List.map_append]
  refine List.pairwise_append.mpr ⟨((List.filter_sublist acc).map Prod.fst).nodup h,
    List.pairwise_singleton _ _, fun x hx y hy => ?_⟩
  obtain ⟨p, hp, rfl⟩ := List.mem_map.mp hx
  rw [List.map_singleton, List.mem_singleton] at hy
  simpa [hy] using (List.mem_filter.mp hp).2

section Decode
variable (fl : FloatLib)

/-- The members an object has so far, as json.Unmarshal accumulates them: distinct keys, valid
UTF-8 keys and well-formed values. -/
structure MembersWF (acc : List (Bytes × JsonValue)) : Prop where
  nodup : (acc.map Prod.fst).Nodup
  key : ∀ p ∈ acc, ValidUTF8 p.1
  value : ∀ p ∈ acc, p.2.WF fl

theorem MembersWF.nil : MembersWF fl [] := ⟨.nil, nofun, nofun⟩

theorem MembersWF.object {acc : List (Bytes × JsonValue)} (h : MembersWF fl acc) :
    (JsonValue.object acc).WF fl :=
  .object h.nodup h.key h.value

theorem MembersWF.upsert {acc : List (Bytes × JsonValue)} (h : MembersWF fl acc) {k : Bytes} {v : JsonValue}
    (hk : ValidUTF8 k) (hv : v.WF fl) : MembersWF fl (upsert k v acc) where
  nodup := upsert_nodup h.nodup
  key p hp := (mem_upsert hp).elim (h.key p) fun he => he ▸ hk
  value p hp := (mem_upsert hp).elim (h.value p) fun he => he ▸ hv

theorem parseMembers_wf_step
    (ihV : ∀ s v r, parseValue fl n s = some (v, r) → v.WF fl)
    (ihM : ∀ acc s v r, MembersWF fl acc → parseMembers fl n acc s = some (v, r) → v.WF fl)
    {acc : List (Bytes × JsonValue)} (hacc : MembersWF fl acc)
    {s : Bytes} {v : JsonValue} {r : Bytes} (h : parseMembers fl (n + 1) acc s = some (v, r)) : v.WF fl := by
  rw [parseMembers.eq_def] at h
  dsimp only at h
  split at h
  · obtain ⟨⟨key, r1⟩, hkey, h⟩ := Option.bind_eq_some.mp h
    dsimp only at h
    split at h
    · obtain ⟨⟨v', r2⟩, hv', h⟩ := Option.bind_eq_some.mp h
      dsimp only at h
      have hacc' := hacc.upsert fl (parseString_valid hkey) (ihV _ _ _ hv')
      split at h
      · exact ihM _ _ _ _ hacc' h
      · cases h; exact hacc'.object
      · cases h
    · cases h
  · cases h

theorem parseElements_wf_step
    (ihV : ∀ s v r, parseValue fl n s = some (v, r) → v.WF fl)
    (ihE : ∀ acc s v r, (∀ x ∈ acc, x.WF fl) → parseElements fl n acc s = some (v, r) → v.WF fl)
    {acc : List JsonValue} (hacc : ∀ x ∈ acc, x.WF fl)
    {s : Bytes} {v : JsonValue} {r : Bytes} (h : parseElements fl (n + 1) acc s = some (v, r)) : v.WF fl := by
  rw [parseElements.eq_2] at h
  obtain ⟨⟨v', r1⟩, hv', h⟩ := Option.bind_eq_some.mp h
  dsimp only at h
  have hacc' : ∀ x ∈ acc ++ [v'], x.WF fl := fun x hx =>
    (List.mem_append.mp hx).elim (hacc x) fun he => (List.mem_singleton.mp he) ▸ ihV _ _ _ hv'
  split at h
  · exact ihE _ _ _ _ hacc' h
  · cases h; exact .array hacc'
  · cases h

variable (hfl : ∀ lit x, fl.parseFloat lit 64 = .ok x → NumberRoundTrips fl x) {n : Nat}
include hfl

theorem parseValue_wf_step
    (ihM : ∀ acc s v r, MembersWF fl acc → parseMembers fl n acc s = some (v, r) → v.WF fl)
    (ihE : ∀ acc s v r, (∀ x ∈ acc, x.WF fl) → parseElements fl n acc s = some (v, r) → v.WF fl)
    {s : Bytes} {v : JsonValue} {r : Bytes} (h : parseValue fl (n + 1) s = some (v, r)) : v.WF fl := by
  rw [parseValue.eq_2] at h
  split at h
  · cases h
  rename_i b rest _
  by_cases h1 : b = 123
  · rw [if_pos h1] at h
    split at h
    · cases h; exact (MembersWF.nil fl).object
    · exact ihM [] _ _ _ (MembersWF.nil fl) h
  rw [if_neg h1] at h
  by_cases h2 : b = 91
  · rw [if_pos h2] at h
    split at h
    · cases h; exact .array nofun
    · exact ihE [] _ _ _ nofun h
  rw [if_neg h2] at h
  by_cases h3 : b = 34
  · rw [if_pos h3] at h
    obtain ⟨⟨str, r'⟩, hs, he⟩ := Option.map_eq_some'.mp h
    cases he
    exact .string (parseString_valid hs)
  rw [if_neg h3] at h
  by_cases h4 : ascii "true" <+: b :: rest
  · rw [if_pos h4] at h; cases h; exact .bool true
  rw [if_neg h4] at h
  by_cases h5 : ascii "false" <+: b :: rest
  · rw [if_pos h5] at h; cases h; exact .bool false
  rw [if_neg h5] at h
  by_cases h6 : ascii "null" <+: b :: rest
  · rw [if_pos h6] at h; cases h; exact .null
  rw [if_neg h6] at h
  obtain ⟨⟨lit, r'⟩, -, h⟩ := Option.bind_eq_some.mp h
  obtain ⟨x, hx, h⟩ := Option.bind_eq_some.mp h
  cases h
  exact .number (hfl _ _ (eq_ok_of_toOption hx))

theorem parse_wf : ∀ n,
    (∀ s v r, parseValue fl n s = some (v, r) → v.WF fl) ∧
    (∀ acc s v r, MembersWF fl acc → parseMembers fl n acc s = some (v, r) → v.WF fl) ∧
    (∀ acc s v r, (∀ x ∈ acc, x.WF fl) → parseElements fl n acc s = some (v, r) → v.WF fl)
  | 0 => ⟨fun _ _ _ h => (nomatch h), fun _ _ _ _ _ h => (nomatch h), fun _ _ _ _ _ h => (nomatch h)⟩
  | n + 1 =>
    have ih := parse_wf n
    ⟨fun _ _ _ h => parseValue_wf_step fl hfl ih.2.1 ih.2.2 h,
      fun _ _ _ _ ha h => parseMembers_wf_step fl ih.1 ih.2.1 ha h,
      fun _ _ _ _ ha h => parseElements_wf_step fl ih.1 ih.2.2 ha h⟩

/-- Every value json.Unmarshal accepts is well formed: its strings and keys are valid UTF-8,
each object's keys are distinct, and its numbers are what ParseFloat returned. -/
theorem unmarshal_wf {data : Bytes} {v : JsonValue} (h : unmarshal fl data = some v) : v.WF fl := by
  unfold unmarshal at h
  split at h
  · rename_i v' rest hp
    split_ifs at h
    cases h
    exact (parse_wf fl hfl _).1 _ _ _ hp
  · cases h

end Decode

theorem unmarshal_wf_portSecret :
    (∀ lit x, sevenLib.parseFloat lit 64 = .ok x → NumberRoundTrips sevenLib x) ∧
      unmarshal sevenLib portSecretText = some portSecret ∧ portSecret.WF sevenLib := by
  have hr : unmarshal sevenLib portSecretText = some portSecret := rfl
  exact ⟨sevenLib_parseFloat_roundTrips, hr, unmarshal_wf _ sevenLib_parseFloat_roundTrips hr⟩

end GoSecrets.Json
