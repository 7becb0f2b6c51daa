import Sihd.Util.Url.Parts

/-!
# Parsed urls

What holds of every url that was parsed, and which urls of this kind are encoded
and parsed to themselves.
-/

namespace Sihd.Util.Url

open Str

/-- What holds of every url that was parsed. -/
structure Parsed (u : Url) : Prop where
  scheme : u.scheme = [] ∨ validScheme u.scheme = true
  noScheme : u.scheme = [] → u.hasAuthority = false → NoScheme u.path
  noAuthority : u.hasAuthority = false →
    ¬ [slash, slash] <+: u.path ∧ u.userinfo = [] ∧ u.host = [] ∧ u.port = 0
  slashPath : u.hasAuthority = true → u.path.head? = some slash
  userinfo : ∀ c ∈ u.userinfo, isAuthorityEnd c = false
  host : ∀ c ∈ u.host, isAuthorityEnd c = false ∧ c ≠ atSign
  question_not_mem : question ∉ u.path
  hash_not_mem : hash ∉ u.path
  keys : ∀ e ∈ u.queryParams.entries, e.1 ≠ []

/-- The query and the fragment of a url. -/
def encodeTail (u : Url) : List UInt8 := encodeQuery u.queryParams ++ encodeFragment u.fragment

theorem head?_encodeTail {u : Url} {c : UInt8} (h : u.encodeTail.head? = some c) :
    c = question ∨ c = hash := by
  rw [encodeTail, encodeQuery, encodeFragment] at h
  split at h
  · split at h
    · cases h
    · exact .inr (Option.some.inj h).symm
  · exact .inl (Option.some.inj h).symm

theorem prefix_of_prefix_append {p q : List UInt8} (h : [slash, slash] <+: p ++ q)
    (hq : q.head? ≠ some slash) : [slash, slash] <+: p := by
  obtain ⟨t, ht⟩ := h
  match p with
  | [] =>
    rw [List.nil_append] at ht
    rw [← ht] at hq
    exact absurd rfl hq
  | [c] =>
    change slash :: slash :: t = c :: q at ht
    rw [← (List.cons.inj ht).2] at hq
    exact absurd rfl hq
  | c :: c' :: p =>
    change slash :: slash :: t = c :: c' :: (p ++ q) at ht
    obtain ⟨rfl, htail⟩ := List.cons.inj ht
    obtain ⟨rfl, -⟩ := List.cons.inj htail
    exact ⟨p, rfl⟩

/-- The text of the authority. -/
def encodeAuthority (u : Url) : List UInt8 :=
  encodeUserinfo u.userinfo ++ encodeHostPort u.host u.port

section Parsed

variable {u : Url}

theorem Parsed.splitScheme (h : Parsed u) :
    Url.splitScheme u.encode =
      (u.scheme, (if u.hasAuthority then slash :: slash :: u.encodeAuthority else []) ++
        (u.path ++ u.encodeTail)) := by
  have hencode : u.encode = encodeScheme u.scheme ++
      ((if u.hasAuthority then slash :: slash :: u.encodeAuthority else []) ++
        (u.path ++ u.encodeTail)) := by
    rw [encode, encodeTail, List.append_assoc u.path]
    rfl
  rw [hencode]
  rcases h.scheme with hnil | hvalid
  · rw [hnil, encodeScheme, if_pos rfl, List.nil_append]
    refine splitScheme_of_noScheme ?_
    by_cases hauth : u.hasAuthority = true
    · rw [if_pos hauth]
      exact noScheme_slash _
    · rw [if_neg hauth, List.nil_append]
      refine (h.noScheme hnil (by simpa using hauth)).append fun c hc => ?_
      rcases head?_encodeTail hc with rfl | rfl <;> exact ⟨rfl, by decide⟩
  · rw [encodeScheme, if_neg (validScheme_ne_nil hvalid), List.append_assoc,
      List.singleton_append, splitScheme_append hvalid]

theorem authorityEnd_encodePort {port : Int32} {c : UInt8} (hc : c ∈ encodePort port) :
    isAuthorityEnd c = false ∧ c ≠ atSign := by
  rw [encodePort] at hc
  split at hc
  · cases hc
  · rcases List.mem_cons.mp hc with rfl | hc
    · exact ⟨rfl, by decide⟩
    · have hne {d : UInt8} (hd : isDecimalDigit d = false) (hminus : d ≠ minus) : c ≠ d := by
        rintro rfl
        exact not_mem_decimalInt hd hminus hc
      refine ⟨?_, hne rfl (by decide)⟩
      have hslash : c ≠ slash := hne rfl (by decide)
      have hquestion : c ≠ question := hne rfl (by decide)
      have hhash : c ≠ hash := hne rfl (by decide)
      simp [isAuthorityEnd, hslash, hquestion, hhash]

theorem Parsed.encodeHostPort (h : Parsed u) {c : UInt8}
    (hc : c ∈ Url.encodeHostPort u.host u.port) : isAuthorityEnd c = false ∧ c ≠ atSign := by
  rw [Url.encodeHostPort, List.mem_append] at hc
  rcases hc with hc | hc
  · split at hc
    · rw [List.cons_append, List.mem_cons, List.mem_append, List.mem_singleton] at hc
      rcases hc with rfl | hc | rfl
      · exact ⟨rfl, by decide⟩
      · exact h.host c hc
      · exact ⟨rfl, by decide⟩
    · exact h.host c hc
  · exact authorityEnd_encodePort hc

theorem Parsed.encodeAuthority (h : Parsed u) :
    ∀ c ∈ u.encodeAuthority, isAuthorityEnd c = false := by
  intro c hc
  rw [Url.encodeAuthority, List.mem_append] at hc
  rcases hc with hc | hc
  · rw [encodeUserinfo] at hc
    split at hc
    · cases hc
    · rw [List.mem_append, List.mem_singleton] at hc
      rcases hc with hc | rfl
      · exact h.userinfo c hc
      · rfl
  · exact (h.encodeHostPort hc).1

theorem Parsed.splitAuthority (h : Parsed u) :
    Url.splitAuthority ((if u.hasAuthority then slash :: slash :: u.encodeAuthority else []) ++
        (u.path ++ u.encodeTail)) =
      (u.hasAuthority, if u.hasAuthority then u.encodeAuthority else [],
        u.path ++ u.encodeTail) := by
  by_cases hauth : u.hasAuthority = true
  · have hpath := h.slashPath hauth
    rw [if_pos hauth, if_pos hauth, hauth, List.cons_append, List.cons_append]
    refine splitAuthority_append h.encodeAuthority fun c hc => ?_
    cases hp : u.path with
    | nil =>
      rw [hp] at hpath
      cases hpath
    | cons d path =>
      rw [hp] at hc hpath
      cases hpath
      cases hc
      rfl
  · rw [if_neg hauth, if_neg hauth, List.nil_append]
    have hfalse : u.hasAuthority = false := by simpa using hauth
    have hnot : ¬ [slash, slash] <+: u.path ++ u.encodeTail := by
      refine fun hpre => (h.noAuthority hfalse).1 (prefix_of_prefix_append hpre ?_)
      intro hslash
      rcases head?_encodeTail hslash with heq | heq <;> cases heq
    rw [Url.splitAuthority, if_neg (by rwa [List.isPrefixOf_iff_prefix]), hfalse]

/-- A parsed url is encoded and parsed to itself, except for its host and
port. -/
theorem Parsed.parse_encode (h : Parsed u) :
    parse u.encode = { u with
      host := (if u.hasAuthority then parseHostPort (Url.encodeHostPort u.host u.port)
        else ([], 0)).1
      port := (if u.hasAuthority then parseHostPort (Url.encodeHostPort u.host u.port)
        else ([], 0)).2 } := by
  have huser : splitUserinfo (if u.hasAuthority then u.encodeAuthority else []) =
      (u.userinfo, if u.hasAuthority then Url.encodeHostPort u.host u.port else []) := by
    by_cases hauth : u.hasAuthority = true
    · rw [if_pos hauth, if_pos hauth]
      exact splitUserinfo_encode fun hmem => (h.encodeHostPort hmem).2 rfl
    · rw [if_neg hauth, if_neg hauth, (h.noAuthority (by simpa using hauth)).2.1]
      rfl
  have hhost : parseHostPort (if u.hasAuthority then Url.encodeHostPort u.host u.port else []) =
      if u.hasAuthority then parseHostPort (Url.encodeHostPort u.host u.port)
        else ([], 0) := by
    split <;> rfl
  have hfragment : splitFragment (u.path ++ u.encodeTail) =
      (u.path ++ encodeQuery u.queryParams, u.fragment) := by
    rw [encodeTail, ← List.append_assoc]
    refine splitFragment_encode ?_
    rw [List.mem_append, not_or]
    exact ⟨h.hash_not_mem, hash_not_mem_encodeQuery _⟩
  have hquery := splitQuery_encode h.question_not_mem h.keys
  have hpath : ¬ (u.hasAuthority = true ∧ u.path = []) := by
    rintro ⟨hauth, hnil⟩
    have hslash := h.slashPath hauth
    rw [hnil] at hslash
    cases hslash
  simp only [parse, h.splitScheme, h.splitAuthority, huser, hhost, hfragment, hquery,
    if_neg hpath]

/-- Which parsed urls are encoded and parsed to themselves. -/
theorem Parsed.parse_encode_iff (h : Parsed u) : parse u.encode = u ↔ GoodHost u.host := by
  rw [h.parse_encode, ← parseHostPort_encode_iff u.host u.port]
  by_cases hauth : u.hasAuthority = true
  · rw [if_pos hauth, Prod.ext_iff, Url.mk.injEq]
    simp
  · obtain ⟨-, -, hhost, hport⟩ := h.noAuthority (by simpa using hauth)
    have hgood : parseHostPort (Url.encodeHostPort u.host u.port) = (u.host, u.port) := by
      rw [parseHostPort_encode_iff, hhost]
      exact ⟨fun h => (by cases h), fun h => (by cases h)⟩
    rw [if_neg hauth]
    refine iff_of_true ?_ hgood
    rw [Url.mk.injEq]
    simp [hhost, hport]

end Parsed

/-! ### Every parsed url -/

theorem NoScheme.of_prefix {p s : List UInt8} (h : NoScheme s) (hp : p <+: s) : NoScheme p := by
  obtain ⟨q, rfl⟩ := hp
  intro w t hcut
  obtain ⟨hw, rfl⟩ := cut_eq_some_iff.mp hcut
  refine h w (t ++ q) ?_
  rw [List.append_assoc, List.cons_append]
  exact cut_append_cons hw _

/-- An authority ends where its end is found. -/
theorem splitAuthority_spec (s : List UInt8) :
    (splitAuthority s = (false, [], s) ∧ ¬ [slash, slash] <+: s) ∨
      ∃ a t, s = slash :: slash :: (a ++ t) ∧ splitAuthority s = (true, a, t) ∧
        (∀ c ∈ a, isAuthorityEnd c = false) ∧
        ∀ c, t.head? = some c → isAuthorityEnd c = true := by
  by_cases h : [slash, slash] <+: s
  · obtain ⟨r, rfl⟩ := h
    refine .inr ⟨r.takeWhile fun c => !isAuthorityEnd c, r.dropWhile fun c => !isAuthorityEnd c,
      ?_, ?_, ?_, ?_⟩
    · rw [List.takeWhile_append_dropWhile]
      rfl
    · rw [splitAuthority, if_pos (by simp)]
      rfl
    · intro c hc
      simpa using List.all_eq_true.mp List.all_takeWhile c hc
    · intro c hc
      have hnot := List.head?_dropWhile_not (fun c => !isAuthorityEnd c) r
      rw [hc] at hnot
      simpa using hnot
  · refine .inl ⟨?_, h⟩
    rw [splitAuthority, if_neg (by rwa [List.isPrefixOf_iff_prefix])]

theorem splitUserinfo_spec (a : List UInt8) :
    ∃ userinfo, a = userinfo ++ (splitUserinfo a).2 ∧ atSign ∉ (splitUserinfo a).2 ∧
      ((splitUserinfo a).1 = [] ∧ userinfo = [] ∨
        userinfo = (splitUserinfo a).1 ++ [atSign]) := by
  rw [splitUserinfo]
  cases hcut : cutLast atSign a with
  | none => exact ⟨[], rfl, cutLast_eq_none_iff.mp hcut, .inl ⟨rfl, rfl⟩⟩
  | some p =>
    obtain ⟨userinfo, hostPort⟩ := p
    obtain ⟨hnot, rfl⟩ := cutLast_eq_some_iff.mp hcut
    refine ⟨userinfo ++ [atSign], ?_, hnot, .inr rfl⟩
    rw [List.append_assoc]
    rfl

theorem mem_of_mem_parseHostPort {a : List UInt8} {c : UInt8} (h : c ∈ (parseHostPort a).1) :
    c ∈ a := by
  rw [parseHostPort] at h
  split at h
  · split at h
    · rename_i before after hcut
      obtain ⟨-, rfl⟩ := cut_eq_some_iff.mp hcut
      exact List.mem_append_left _ (List.mem_of_mem_tail h)
    · cases h
  · split at h
    · rename_i before after hcut
      obtain ⟨-, rfl⟩ := cutLast_eq_some_iff.mp hcut
      split at h
      · exact List.mem_append_left _ h
      · exact h
    · exact h

theorem splitFragment_prefix (s : List UInt8) :
    (splitFragment s).1 <+: s ∧ hash ∉ (splitFragment s).1 := by
  rw [splitFragment]
  cases hcut : cut hash s with
  | none => exact ⟨List.prefix_rfl, cut_eq_none_iff.mp hcut⟩
  | some p =>
    obtain ⟨hnot, rfl⟩ := cut_eq_some_iff.mp hcut
    exact ⟨List.prefix_append _ _, hnot⟩

theorem splitQuery_prefix (s : List UInt8) :
    (splitQuery s).1 <+: s ∧ question ∉ (splitQuery s).1 := by
  rw [splitQuery]
  cases hcut : cut question s with
  | none => exact ⟨List.prefix_rfl, cut_eq_none_iff.mp hcut⟩
  | some p =>
    obtain ⟨hnot, rfl⟩ := cut_eq_some_iff.mp hcut
    exact ⟨List.prefix_append _ _, hnot⟩

/-- No parameter has an empty key. -/
theorem parseQuery_keys (query : List UInt8) : ∀ e ∈ (parseQuery query).entries, e.1 ≠ [] := by
  rw [parseQuery]
  refine List.foldlRecOn (motive := fun m : OrderedMap (List UInt8) (List UInt8) =>
    ∀ e ∈ m.entries, e.1 ≠ []) _ _ (fun e he => ?_) fun m hm param _ => ?_
  · cases he
  · dsimp only
    split
    · exact hm
    · rename_i hkey
      intro e he
      rcases OrderedMap.mem_setEntries he with rfl | he
      · exact percentDecode_eq_nil_iff.not.mpr hkey
      · exact hm e he

theorem splitQuery_keys (s : List UInt8) : ∀ e ∈ (splitQuery s).2.entries, e.1 ≠ [] := by
  rw [splitQuery]
  split
  · exact parseQuery_keys _
  · exact fun e he => (by cases he)

/-- The url of a scheme, an authority and what is after them. -/
def ofParts (scheme : List UInt8) (hasAuthority : Bool) (authority rest : List UInt8) : Url where
  scheme := scheme
  userinfo := (splitUserinfo authority).1
  host := (parseHostPort (splitUserinfo authority).2).1
  port := (parseHostPort (splitUserinfo authority).2).2
  path := if hasAuthority ∧ (splitQuery (splitFragment rest).1).1 = [] then [slash]
    else (splitQuery (splitFragment rest).1).1
  queryParams := (splitQuery (splitFragment rest).1).2
  fragment := (splitFragment rest).2
  hasAuthority := hasAuthority

theorem parse_eq (url : List UInt8) :
    parse url = ofParts (splitScheme url).1 (splitAuthority (splitScheme url).2).1
      (splitAuthority (splitScheme url).2).2.1 (splitAuthority (splitScheme url).2).2.2 := rfl

section OfParts

variable {scheme rest : List UInt8}

theorem path_prefix (rest : List UInt8) :
    (splitQuery (splitFragment rest).1).1 <+: rest ∧
      question ∉ (splitQuery (splitFragment rest).1).1 ∧
      hash ∉ (splitQuery (splitFragment rest).1).1 := by
  obtain ⟨hquery, hquestion⟩ := splitQuery_prefix (splitFragment rest).1
  obtain ⟨hfragment, hhash⟩ := splitFragment_prefix rest
  exact ⟨hquery.trans hfragment, hquestion, fun hmem => hhash (hquery.mem hmem)⟩

theorem parsed_relative (hscheme : scheme = [] ∧ NoScheme rest ∨ validScheme scheme = true)
    (hrest : ¬ [slash, slash] <+: rest) : Parsed (ofParts scheme false [] rest) := by
  obtain ⟨hpre, hquestion, hhash⟩ := path_prefix rest
  have hpath : (ofParts scheme false [] rest).path = (splitQuery (splitFragment rest).1).1 := by
    simp [ofParts]
  rw [← hpath] at hpre hquestion hhash
  exact
    { scheme := hscheme.imp_left And.left
      noScheme := fun hnil _ => by
        rcases hscheme with ⟨-, hno⟩ | hvalid
        · exact hno.of_prefix hpre
        · exact absurd hnil (validScheme_ne_nil hvalid)
      noAuthority := fun _ => ⟨fun h => hrest (h.trans hpre), rfl, rfl, rfl⟩
      slashPath := fun h => by cases h
      userinfo := fun c hc => by cases hc
      host := fun c hc => by cases hc
      question_not_mem := hquestion
      hash_not_mem := hhash
      keys := splitQuery_keys _ }

theorem parsed_absolute {authority : List UInt8}
    (hscheme : scheme = [] ∨ validScheme scheme = true)
    (hauthority : ∀ c ∈ authority, isAuthorityEnd c = false)
    (hrest : ∀ c, rest.head? = some c → isAuthorityEnd c = true) :
    Parsed (ofParts scheme true authority rest) := by
  obtain ⟨hpre, hquestion, hhash⟩ := path_prefix rest
  obtain ⟨userinfo, heq, hat, huserinfo⟩ := splitUserinfo_spec authority
  -- the path is the default one, or starts where the authority ended
  have hslash : ∃ path, (ofParts scheme true authority rest).path = slash :: path ∧
      (slash :: path = [slash] ∨ slash :: path = (splitQuery (splitFragment rest).1).1) := by
    cases hpath : (splitQuery (splitFragment rest).1).1 with
    | nil => exact ⟨[], if_pos ⟨rfl, hpath⟩, .inl rfl⟩
    | cons c path =>
      rw [hpath] at hpre hquestion hhash
      have hend : isAuthorityEnd c = true := hrest c (by obtain ⟨t, rfl⟩ := hpre; rfl)
      rw [List.mem_cons, not_or] at hquestion hhash
      have hc : c = slash := by
        simpa [isAuthorityEnd, Ne.symm hquestion.1, Ne.symm hhash.1] using hend
      refine ⟨path, ?_, .inr (by rw [hc])⟩
      rw [ofParts, hpath, hc]
      rfl
  obtain ⟨path, hpath, hcases⟩ := hslash
  have hnot {d : UInt8} (hne : d ≠ slash) (hd : d ∉ (splitQuery (splitFragment rest).1).1) :
      d ∉ slash :: path := by
    rcases hcases with h | h
    · rw [h]
      simpa using hne
    · rwa [h]
  exact
    { scheme := hscheme
      noScheme := fun _ h => by cases h
      noAuthority := fun h => by cases h
      slashPath := fun _ => by rw [hpath]; rfl
      userinfo := fun c hc => by
        refine hauthority c ?_
        rcases huserinfo with ⟨hnil, -⟩ | huser
        · change c ∈ (splitUserinfo authority).1 at hc
          rw [hnil] at hc
          cases hc
        · rw [heq, huser]
          exact List.mem_append_left _ (List.mem_append_left _ hc)
      host := fun c hc => by
        have hmem := mem_of_mem_parseHostPort hc
        refine ⟨hauthority c (heq ▸ List.mem_append_right _ hmem), ?_⟩
        rintro rfl
        exact hat hmem
      question_not_mem := hpath ▸ hnot (by decide) hquestion
      hash_not_mem := hpath ▸ hnot (by decide) hhash
      keys := splitQuery_keys _ }

end OfParts

theorem parsed_parse (url : List UInt8) : Parsed (parse url) := by
  rw [parse_eq]
  rcases splitAuthority_spec (splitScheme url).2 with ⟨heq, hnot⟩ | ⟨a, t, -, heq, ha, ht⟩
  · rw [heq]
    refine parsed_relative ?_ hnot
    rcases splitScheme_spec url with ⟨hscheme, hno⟩ | ⟨scheme, s, hscheme, hvalid⟩
    · rw [hscheme]
      exact .inl ⟨rfl, hno⟩
    · rw [hscheme]
      exact .inr hvalid
  · rw [heq]
    refine parsed_absolute ?_ ha ht
    rcases splitScheme_spec url with ⟨hscheme, -⟩ | ⟨scheme, s, hscheme, hvalid⟩
    · exact .inl (congrArg Prod.fst hscheme)
    · rw [hscheme]
      exact .inr hvalid

end Sihd.Util.Url
