import GoSecrets.Tag

/-! The canonical form of a parsed tag: `t.URI()`, then `#fragment` when the fragment is
non-empty, `,optional`, and `,version=X` when the version is non-empty. parseTag reads it back
as `t` unless the key holds a `#` that an empty fragment no longer shields (the last `#` is
taken as the fragment's), or a bare key holds `://` (the first `://` is taken as the
scheme's). -/
namespace GoSecrets

/-- The canonical tag of `t`, in the words of the specification. -/
def ParsedTag.canon (t : ParsedTag) : Bytes :=
  t.uri ++ (if t.fragment ≠ [] then ascii "#" ++ t.fragment else []) ++
    (if t.optional then ascii ",optional" else []) ++
    (if t.version ≠ [] then ascii ",version=" ++ t.version else [])

/-- The part before the first comma of the canonical tag. -/
def ParsedTag.uriPart (t : ParsedTag) : Bytes :=
  t.uri ++ if t.fragment ≠ [] then byte '#' :: t.fragment else []

/-- The options of the canonical tag. -/
def ParsedTag.options (t : ParsedTag) : List Bytes :=
  (if t.optional then [ascii "optional"] else []) ++
    if t.version ≠ [] then [ascii "version=" ++ t.version] else []

theorem ParsedTag.canon_eq (t : ParsedTag) :
    t.canon = [byte ','].intercalate (t.uriPart :: t.options) := by
  unfold canon uriPart options
  by_cases hf : t.fragment = [] <;> cases t.optional <;> by_cases hv : t.version = [] <;>
    simp [hf, hv, List.intercalate, ascii, byte]

/-! ### The string functions on the inputs that matter -/

/-- No piece of strings.Split holds the separator. -/
theorem not_mem_of_mem_splitOn {c : UInt8} : ∀ {s l : Bytes}, l ∈ s.splitOn c → c ∉ l
  | [], l, h => by simp_all [List.splitOn_nil]
  | x :: s, l, h => by
    unfold List.splitOn at h
    rw [List.splitOnP_cons] at h
    split at h
    · rcases List.mem_cons.mp h with rfl | h
      · exact List.not_mem_nil c
      · exact not_mem_of_mem_splitOn h
    · have hx : x ≠ c := by simpa using ‹¬(x == c) = true›
      obtain ⟨p, ps, hps⟩ := List.exists_cons_of_ne_nil (List.splitOnP_ne_nil (· == c) s)
      rw [hps] at h
      simp only [List.modifyHead, List.mem_cons] at h
      have hrest : ∀ l ∈ s.splitOn c, c ∉ l := fun l hl => not_mem_of_mem_splitOn hl
      unfold List.splitOn at hrest
      rw [hps] at hrest
      rcases h with rfl | h
      · simp only [List.mem_cons, not_or]
        exact ⟨Ne.symm hx, hrest p (.head _)⟩
      · exact hrest l (.tail _ h)

/-- strings.LastIndex finds no `c` exactly when there is none. -/
theorem cutLast_eq_none {c : UInt8} : ∀ {s : Bytes}, cutLast c s = none ↔ c ∉ s
  | [] => by simp [cutLast]
  | x :: s => by
    unfold cutLast
    split
    · rename_i p hp
      simp only [reduceCtorEq, false_iff, not_not]
      exact .tail _ (not_not.mp (mt cutLast_eq_none.mpr (by rw [hp]; exact Option.noConfusion)))
    · rename_i hp
      have hs := cutLast_eq_none.mp hp
      by_cases hx : x = c
      · subst hx; simp
      · simp [hx, hs, Ne.symm hx]

/-- strings.LastIndex on `a ++ c :: b` with no `c` in `b`. -/
theorem cutLast_append {c : UInt8} {b : Bytes} (hb : c ∉ b) :
    ∀ a : Bytes, cutLast c (a ++ c :: b) = some (a, b)
  | [] => by simp [cutLast, cutLast_eq_none.mpr hb]
  | x :: a => by simp [cutLast, cutLast_append hb a]

theorem cutLast_eq_some {c : UInt8} : ∀ {s a b : Bytes},
    cutLast c s = some (a, b) → s = a ++ c :: b ∧ c ∉ b
  | [], _, _, h => by simp [cutLast] at h
  | x :: s, a, b, h => by
    unfold cutLast at h
    split at h
    · rename_i p hp
      obtain ⟨rfl, rfl⟩ := Prod.mk.inj (Option.some.inj h).symm
      obtain ⟨rfl, hn⟩ := cutLast_eq_some hp
      exact ⟨rfl, hn⟩
    · rename_i hp
      split at h
      · obtain ⟨rfl, rfl⟩ := Prod.mk.inj (Option.some.inj h).symm
        exact ⟨by simp [*], cutLast_eq_none.mp hp⟩
      · cases h

/-- strings.Cut finds no `sep` exactly when it does not occur. -/
theorem cut_eq_none {sep : Bytes} (hsep : sep ≠ []) : ∀ {s : Bytes}, cut sep s = none ↔ ¬ sep <:+: s
  | [] => by
    cases sep with
    | nil => exact absurd rfl hsep
    | cons y ys => simp [cut, List.isPrefixOf]
  | x :: s => by
    by_cases hp : sep <+: x :: s
    · rw [cut, if_pos (List.isPrefixOf_iff_prefix.mpr hp)]
      simp [hp.isInfix]
    · rw [cut, if_neg (mt List.isPrefixOf_iff_prefix.mp hp)]
      simp only [Option.map_eq_none', cut_eq_none hsep, List.infix_cons_iff, hp, false_or]

/-- strings.Cut cuts at the first occurrence of `sep`. -/
theorem cut_eq_some {sep : Bytes} (hsep : sep ≠ []) : ∀ {s a b : Bytes},
    cut sep s = some (a, b) → s = a ++ sep ++ b ∧ ¬ sep <:+: a
  | [], a, b, h => by
    cases sep with
    | nil => exact absurd rfl hsep
    | cons y ys => simp [cut, List.isPrefixOf] at h
  | x :: s, a, b, h => by
    rw [cut] at h
    split at h
    · rename_i hp
      obtain ⟨rfl, rfl⟩ := Prod.mk.inj (Option.some.inj h).symm
      exact ⟨(List.prefix_iff_eq_append.mp (List.isPrefixOf_iff_prefix.mp hp)).symm, by simpa using hsep⟩
    · rename_i hp
      obtain ⟨⟨a', b'⟩, h', he⟩ := Option.map_eq_some'.mp h
      obtain ⟨rfl, rfl⟩ := Prod.mk.inj he
      obtain ⟨rfl, hn⟩ := cut_eq_some hsep h'
      refine ⟨rfl, fun hi => ?_⟩
      rcases List.infix_cons_iff.mp hi with hpre | hi
      · exact hp (List.isPrefixOf_iff_prefix.mpr (hpre.trans (by simp)))
      · exact hn hi

/-- `://` has no border: an occurrence of it cannot start inside `a` and run on into the
separator after `a`. -/
theorem not_prefix_scheme_sep {x : UInt8} {a : Bytes} (b : Bytes) (ha : ¬ ascii "://" <:+: x :: a) :
    ¬ ascii "://" <+: x :: (a ++ ascii "://" ++ b) := by
  intro hp
  have hsep : ascii "://" = [58, 47, 47] := rfl
  rw [hsep] at ha hp
  rcases a with _ | ⟨y, _ | ⟨z, a⟩⟩ <;> simp only [List.cons_prefix_cons, List.nil_append,
    List.cons_append, List.singleton_append] at hp
  · exact absurd hp.2.1 (by decide)
  · exact absurd hp.2.2.1 (by decide)
  · obtain ⟨rfl, rfl, rfl, -⟩ := hp
    exact ha (List.IsPrefix.isInfix ⟨a, rfl⟩)

/-- strings.Cut at `://` on `scheme://key`, for a scheme without `://`. -/
theorem cut_scheme (b : Bytes) : ∀ {a : Bytes}, ¬ ascii "://" <:+: a →
    cut (ascii "://") (a ++ ascii "://" ++ b) = some (a, b)
  | [], _ => by
    rw [cut.eq_def, if_pos (List.isPrefixOf_iff_prefix.mpr (by simp))]
    rfl
  | x :: a, ha => by
    rw [List.cons_append, List.cons_append, cut,
      if_neg (mt List.isPrefixOf_iff_prefix.mp (by simpa using not_prefix_scheme_sep b ha))]
    simp only [← List.append_assoc, cut_scheme b (fun hi => ha (hi.trans (List.suffix_cons x a).isInfix)),
      Option.map_some']

/-! ### The steps of parseTag -/

theorem parseTag_eq_ok {raw : Bytes} {t : ParsedTag} :
    parseTag raw = .ok t ↔ raw ≠ [] ∧ ∃ t0,
      (raw.splitOn (byte ',')).tail.foldlM applyOption ⟨[], [], [], false, []⟩ = .ok t0 ∧
        parseURI t0 ((raw.splitOn (byte ',')).headD []) = t ∧ t.key ≠ [] := by
  unfold parseTag
  by_cases hr : raw = []
  · simp [hr]
  · rw [if_neg hr]
    cases (raw.splitOn (byte ',')).tail.foldlM applyOption ⟨[], [], [], false, []⟩ with
    | error e => simp [hr]
    | ok t0 =>
      dsimp only
      split <;> rename_i hk
      · simp only [reduceCtorEq, false_iff]
        rintro ⟨-, _, ⟨⟩, rfl, h⟩
        exact h hk
      · constructor
        · rintro ⟨⟩
          exact ⟨hr, t0, rfl, rfl, hk⟩
        · rintro ⟨-, _, ⟨⟩, rfl, -⟩
          rfl

theorem applyOption_eq_ok {t t' : ParsedTag} {o : Bytes} (h : applyOption t o = .ok t') :
    t' = { t with optional := true } ∨ t' = { t with version := o.drop 8 } := by
  unfold applyOption at h
  split at h
  · exact .inl (Except.ok.inj h).symm
  · split at h
    · exact .inr (Except.ok.inj h).symm
    · cases h

/-- The options touch neither the scheme, the key nor the fragment, and a version comes from
an option. -/
theorem foldlM_applyOption_eq_ok {c : UInt8} : ∀ {opts : List Bytes} {t t' : ParsedTag},
    opts.foldlM applyOption t = .ok t' → (∀ o ∈ opts, c ∉ o) → c ∉ t.version →
      t'.scheme = t.scheme ∧ t'.key = t.key ∧ t'.fragment = t.fragment ∧ c ∉ t'.version
  | [], t, t', h, _, hv => by cases h; exact ⟨rfl, rfl, rfl, hv⟩
  | o :: opts, t, t', h, ho, hv => by
    rw [List.foldlM_cons] at h
    cases h1 : applyOption t o with
    | error e => rw [h1] at h; cases h
    | ok s =>
      rw [h1] at h
      have hs : s.scheme = t.scheme ∧ s.key = t.key ∧ s.fragment = t.fragment ∧ c ∉ s.version := by
        rcases applyOption_eq_ok h1 with rfl | rfl
        · exact ⟨rfl, rfl, rfl, hv⟩
        · exact ⟨rfl, rfl, rfl, fun hm => ho o (.head _) (List.mem_of_mem_drop hm)⟩
      obtain ⟨h1, h2, h3, h4⟩ := foldlM_applyOption_eq_ok h (fun o' h' => ho o' (.tail _ h')) hs.2.2.2
      exact ⟨h1.trans hs.1, h2.trans hs.2.1, h3.trans hs.2.2.1, h4⟩

theorem applyOption_version (s : ParsedTag) {v : Bytes} (hv : v ≠ []) :
    applyOption s (ascii "version=" ++ v) = .ok { s with version := v } := by
  have hlen : (ascii "version=").length = 8 := rfl
  have hne : ascii "version=" ++ v ≠ ascii "optional" := fun h => by
    have := congrArg List.length h
    rw [List.length_append, hlen, show (ascii "optional").length = 8 from rfl] at this
    exact hv (List.length_eq_zero.mp (by omega))
  rw [applyOption, if_neg hne, if_pos (List.isPrefixOf_iff_prefix.mpr (List.prefix_append _ _)),
    List.drop_left' hlen]

theorem foldlM_options (t : ParsedTag) :
    t.options.foldlM applyOption ⟨[], [], [], false, []⟩ = .ok ⟨[], [], [], t.optional, t.version⟩ := by
  have hopt (s : ParsedTag) : applyOption s (ascii "optional") = .ok { s with optional := true } := by
    rw [applyOption, if_pos rfl]
  unfold ParsedTag.options
  by_cases hv : t.version = []
  · cases t.optional <;> simp only [hv, ne_eq, not_true_eq_false, if_false, if_true,
      List.append_nil, List.foldlM_cons, hopt] <;> rfl
  · cases t.optional <;> simp only [hv, ne_eq, not_false_eq_true, Bool.false_eq_true, if_false,
      if_true, List.nil_append, List.singleton_append, List.foldlM_cons, hopt,
      applyOption_version _ hv] <;> rfl

/-- The first half of parseURI: the fragment after the last `#`. -/
def splitFragment (t : ParsedTag) (uri : Bytes) : Bytes × ParsedTag :=
  match cutLast (byte '#') uri with
  | some (u, frag) => (u, { t with fragment := frag })
  | none => (uri, t)

/-- The second half of parseURI: the scheme before the first `://`. -/
def splitScheme (t : ParsedTag) (uri : Bytes) : ParsedTag :=
  match cut (ascii "://") uri with
  | some (scheme, rest) => { t with scheme := scheme, key := rest }
  | none => { t with key := uri }

theorem parseURI_eq (t : ParsedTag) (uri : Bytes) :
    parseURI t uri = splitScheme (splitFragment t uri).2 (splitFragment t uri).1 := rfl

theorem splitFragment_cases (s : ParsedTag) (uri : Bytes) :
    (byte '#' ∉ uri ∧ splitFragment s uri = (uri, s)) ∨ ∃ u frag, uri = u ++ byte '#' :: frag ∧
      byte '#' ∉ frag ∧ splitFragment s uri = (u, { s with fragment := frag }) := by
  unfold splitFragment
  cases h : cutLast (byte '#') uri with
  | none => exact .inl ⟨cutLast_eq_none.mp h, rfl⟩
  | some p =>
    obtain ⟨hu, hf⟩ := cutLast_eq_some h
    exact .inr ⟨p.1, p.2, hu, hf, rfl⟩

/-- On the URI part of a canonical tag the fragment step gives back the URI and the fragment. -/
theorem splitFragment_uriPart {t : ParsedTag} (hfrag : byte '#' ∉ t.fragment)
    (h1 : t.fragment ≠ [] ∨ byte '#' ∉ t.uri) {s : ParsedTag} (hs : s.fragment = []) :
    splitFragment s t.uriPart = (t.uri, { s with fragment := t.fragment }) := by
  unfold splitFragment ParsedTag.uriPart
  by_cases hf : t.fragment = []
  · rw [if_neg (not_not.mpr hf), List.append_nil,
      cutLast_eq_none.mpr (h1.resolve_left (not_not.mpr hf)), hf, ← hs]
  · rw [if_pos hf, cutLast_append hfrag]

theorem splitScheme_of_cut {s : ParsedTag} {u a b : Bytes} (h : cut (ascii "://") u = some (a, b)) :
    splitScheme s u = { s with scheme := a, key := b } := by
  rw [splitScheme, h]

/-- The scheme step keeps the rest of the tag, finds no `://` in the scheme, and keeps a
sublist of its input as the URI. -/
theorem splitScheme_spec {s : ParsedTag} (hs : s.scheme = []) (u : Bytes) :
    List.Sublist (splitScheme s u).uri u ∧ ¬ ascii "://" <:+: (splitScheme s u).scheme ∧
      (splitScheme s u).fragment = s.fragment ∧ (splitScheme s u).optional = s.optional ∧
        (splitScheme s u).version = s.version := by
  have hsep : ascii "://" ≠ [] := by decide
  cases hc : cut (ascii "://") u with
  | none => simp [splitScheme, hc, ParsedTag.uri, hs, hsep]
  | some p =>
    obtain ⟨hu, ha⟩ := cut_eq_some hsep hc
    rw [splitScheme_of_cut hc]
    refine ⟨?_, ha, rfl, rfl, rfl⟩
    rw [hu, ParsedTag.uri]
    split
    · exact List.Sublist.refl _
    · exact List.sublist_append_right _ _

theorem splitScheme_uri (t : ParsedTag) (hs : ¬ ascii "://" <:+: t.scheme)
    (h2 : t.scheme ≠ [] ∨ ¬ ascii "://" <:+: t.key) {s : ParsedTag} (h0 : s.scheme = []) :
    splitScheme s t.uri = { s with scheme := t.scheme, key := t.key } := by
  unfold ParsedTag.uri
  by_cases h : t.scheme = []
  · rw [if_neg (not_not.mpr h), splitScheme,
      (cut_eq_none (by decide)).mpr (h2.resolve_left (not_not.mpr h)), h, ← h0]
  · rw [if_pos h, splitScheme_of_cut (cut_scheme _ hs)]

/-! ### Well-formed tags -/

/-- What every tag parseTag returns satisfies. -/
structure ParsedTag.WellFormed (t : ParsedTag) : Prop where
  key_ne_nil : t.key ≠ []
  hash_not_mem_fragment : byte '#' ∉ t.fragment
  comma_not_mem_uriPart : byte ',' ∉ t.uriPart
  comma_not_mem_version : byte ',' ∉ t.version
  scheme_sep_not_infix : ¬ ascii "://" <:+: t.scheme

theorem parseURI_spec {s : ParsedTag} (hs : s.scheme = []) (hf : s.fragment = []) (uri : Bytes) :
    byte '#' ∉ (parseURI s uri).fragment ∧ List.Sublist (parseURI s uri).uriPart uri ∧
      ¬ ascii "://" <:+: (parseURI s uri).scheme ∧ (parseURI s uri).version = s.version := by
  rw [parseURI_eq]
  rcases splitFragment_cases s uri with ⟨-, hsf⟩ | ⟨u, frag, rfl, hfr, hsf⟩ <;> rw [hsf]
  · obtain ⟨hsub, hsch, hf', -, hv⟩ := splitScheme_spec hs uri
    refine ⟨by simp [hf', hf], ?_, hsch, hv⟩
    simpa [ParsedTag.uriPart, hf', hf] using hsub
  · obtain ⟨hsub, hsch, hf', -, hv⟩ := splitScheme_spec (s := { s with fragment := frag }) hs u
    refine ⟨hf' ▸ hfr, ?_, hsch, hv⟩
    rw [ParsedTag.uriPart, hf']
    refine hsub.append ?_
    split
    · exact List.Sublist.refl _
    · exact List.nil_sublist _

theorem parseTag_wellFormed {raw : Bytes} {t : ParsedTag} (h : parseTag raw = .ok t) :
    t.WellFormed := by
  obtain ⟨-, t0, hf, rfl, hk⟩ := parseTag_eq_ok.mp h
  have hpieces : ∀ l ∈ raw.splitOn (byte ','), byte ',' ∉ l := fun l hl => not_mem_of_mem_splitOn hl
  have hhead : byte ',' ∉ (raw.splitOn (byte ',')).headD [] := by
    cases hsp : raw.splitOn (byte ',') with
    | nil => exact List.not_mem_nil _
    | cons p ps => exact hpieces p (hsp ▸ .head _)
  obtain ⟨hs, -, hfr, hv⟩ := foldlM_applyOption_eq_ok hf
    (fun o ho => hpieces o (List.mem_of_mem_tail ho)) (List.not_mem_nil _)
  obtain ⟨h1, h2, h3, h4⟩ := parseURI_spec hs hfr ((raw.splitOn (byte ',')).headD [])
  exact ⟨hk, h1, fun hm => hhead (h2.subset hm), h4 ▸ hv, h3⟩

theorem splitOn_canon {t : ParsedTag} (hw : t.WellFormed) :
    t.canon.splitOn (byte ',') = t.uriPart :: t.options := by
  have hopts : ∀ l ∈ t.options, l = ascii "optional" ∨ l = ascii "version=" ++ t.version := by
    unfold ParsedTag.options
    split_ifs <;> simp
  rw [t.canon_eq]
  refine List.splitOn_intercalate _ _ ?_ (List.cons_ne_nil _ _)
  rintro l (_ | ⟨_, hl⟩)
  · exact hw.comma_not_mem_uriPart
  · rcases hopts l hl with rfl | rfl
    · decide
    · exact List.not_mem_append (by decide) hw.comma_not_mem_version

/-- A well-formed tag whose fragment shields the `#`s of its URI and whose scheme shields
the `://`s of its key is read back from its canonical form. -/
theorem parseTag_canon {t : ParsedTag} (hw : t.WellFormed) (h1 : t.fragment ≠ [] ∨ byte '#' ∉ t.uri)
    (h2 : t.scheme ≠ [] ∨ ¬ ascii "://" <:+: t.key) : parseTag t.canon = .ok t := by
  have hcanon : t.canon ≠ [] := fun hc => by
    have hu : t.uri = [] := (List.append_eq_nil.mp (List.append_eq_nil.mp (List.append_eq_nil.mp hc).1).1).1
    unfold ParsedTag.uri at hu
    split at hu <;> simp_all [hw.key_ne_nil]
  refine parseTag_eq_ok.mpr ⟨hcanon, _, by rw [splitOn_canon hw]; exact foldlM_options t, ?_, hw.key_ne_nil⟩
  rw [splitOn_canon hw, List.headD_cons, parseURI_eq,
    splitFragment_uriPart hw.hash_not_mem_fragment h1 rfl]
  rw [splitScheme_uri t hw.scheme_sep_not_infix h2 rfl]

/-- Both conditions are needed: an empty fragment that leaves a `#` in the URI, or an empty
scheme that leaves `://` in the key, changes the tag read back. -/
theorem canon_conditions {t : ParsedTag} (hw : t.WellFormed)
    (h : parseURI ⟨[], [], [], t.optional, t.version⟩ t.uriPart = t) :
    (t.fragment ≠ [] ∨ byte '#' ∉ t.uri) ∧ (t.scheme ≠ [] ∨ ¬ ascii "://" <:+: t.key) := by
  rw [parseURI_eq] at h
  have h1 : t.fragment ≠ [] ∨ byte '#' ∉ t.uri := by
    refine or_iff_not_imp_left.mpr fun hf hm => ?_
    have hu : t.uriPart = t.uri := by simp [ParsedTag.uriPart, not_not.mp hf]
    rcases splitFragment_cases ⟨[], [], [], t.optional, t.version⟩ t.uriPart with
      ⟨hn, -⟩ | ⟨u, frag, hsplit, -, hsf⟩
    · exact hn (hu ▸ hm)
    · rw [hsf] at h
      dsimp only at h
      obtain ⟨hsub, -, hf', -⟩ := splitScheme_spec (s := ⟨[], [], frag, t.optional, t.version⟩) rfl u
      rw [h] at hsub hf'
      obtain rfl : frag = [] := hf'.symm.trans (not_not.mp hf)
      have hlen : t.uri.length = u.length + 1 := by
        rw [← hu, hsplit, List.length_append, List.length_singleton]
      exact absurd hsub.length_le (by omega)
  refine ⟨h1, or_iff_not_imp_left.mpr fun hs hk => ?_⟩
  rw [splitFragment_uriPart hw.hash_not_mem_fragment h1 rfl] at h
  have hkey : t.uri = t.key := by simp [ParsedTag.uri, not_not.mp hs]
  obtain ⟨⟨a, b⟩, hc⟩ := Option.ne_none_iff_exists'.mp (mt (cut_eq_none (by decide)).mp (not_not.mpr hk))
  obtain ⟨hab, -⟩ := cut_eq_some (by decide) hc
  rw [hkey, splitScheme_of_cut hc] at h
  have := congrArg List.length hab
  rw [← h] at this
  simp only [List.length_append] at this
  exact absurd this (by rw [show (ascii "://").length = 3 from rfl]; omega)

/-- The canonical form of a parsed tag reads back as the tag exactly when the fragment
shields the `#`s of the URI and the scheme shields the `://`s of the key. -/
theorem parseTag_canon_iff {raw : Bytes} {t : ParsedTag} (h : parseTag raw = .ok t) :
    parseTag t.canon = .ok t ↔
      (t.fragment ≠ [] ∨ byte '#' ∉ t.uri) ∧ (t.scheme ≠ [] ∨ ¬ ascii "://" <:+: t.key) := by
  have hw := parseTag_wellFormed h
  refine ⟨fun hc => ?_, fun ⟨h1, h2⟩ => parseTag_canon hw h1 h2⟩
  obtain ⟨-, t0, hf, hu, -⟩ := parseTag_eq_ok.mp hc
  rw [splitOn_canon hw, List.tail_cons, foldlM_options] at hf
  cases hf
  rw [splitOn_canon hw, List.headD_cons] at hu
  exact canon_conditions hw hu

theorem parseTag_canon_iff_db :
    parseTag (ascii "db#password,optional,version=2") = .ok ⟨[], ascii "db", ascii "password", true, ascii "2"⟩ ∧
      (parseTag (ParsedTag.canon ⟨[], ascii "db", ascii "password", true, ascii "2"⟩) =
          .ok ⟨[], ascii "db", ascii "password", true, ascii "2"⟩ ↔
        (ascii "password" ≠ [] ∨ byte '#' ∉ ParsedTag.uri ⟨[], ascii "db", ascii "password", true, ascii "2"⟩) ∧
          (([] : Bytes) ≠ [] ∨ ¬ ascii "://" <:+: ascii "db")) :=
  ⟨rfl, @parseTag_canon_iff (ascii "db#password,optional,version=2") _ rfl⟩

/-- `a#b#` keeps `a#b` as its key, whose canonical form reads back with fragment `b`; `://a://b`
keeps the bare key `a://b`, which reads back with scheme `a`. -/
theorem parseTag_canon_rereads_key :
    parseTag (ascii "a#b#") = .ok ⟨[], ascii "a#b", [], false, []⟩ ∧
      parseTag (ParsedTag.canon ⟨[], ascii "a#b", [], false, []⟩) = .ok ⟨[], ascii "a", ascii "b", false, []⟩ ∧
    parseTag (ascii "://a://b") = .ok ⟨[], ascii "a://b", [], false, []⟩ ∧
      parseTag (ParsedTag.canon ⟨[], ascii "a://b", [], false, []⟩) = .ok ⟨ascii "a", ascii "b", [], false, []⟩ :=
  ⟨rfl, rfl, rfl, rfl⟩

end GoSecrets
