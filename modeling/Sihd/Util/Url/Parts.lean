import Sihd.Util.Url.Definitions

/-!
# The parts of an encoded url

Each part of a url is read back from the string that `encode` writes by the cut
that made it, whatever is written after it. The host is an exception: one that
starts with a bracket and has no colon is written without brackets, and one with
a colon and a closing bracket is cut at the latter.
-/

namespace Sihd.Util.Url

open Str

/-! ### The scheme -/

theorem isSchemeChar_of_mem {s : List UInt8} (h : validScheme s = true) :
    ∀ c ∈ s, isSchemeChar c = true := by
  cases s with
  | nil => cases h
  | cons c s =>
    rw [validScheme, Bool.and_eq_true, List.all_eq_true] at h
    rw [List.forall_mem_cons]
    refine ⟨?_, h.2⟩
    rw [isSchemeChar, h.1]
    rfl

theorem validScheme_ne_nil {s : List UInt8} (h : validScheme s = true) : s ≠ [] := by
  rintro rfl
  cases h

/-- A string that has no scheme. -/
def NoScheme (s : List UInt8) : Prop :=
  ∀ p q, cut colon s = some (p, q) → validScheme p = false

theorem splitScheme_of_noScheme {s : List UInt8} (h : NoScheme s) : splitScheme s = ([], s) := by
  rw [splitScheme]
  split
  · rename_i p q hcut
    rw [h p q hcut, if_neg (by simp)]
  · rfl

theorem splitScheme_append {scheme : List UInt8} (h : validScheme scheme = true)
    (s : List UInt8) : splitScheme (scheme ++ colon :: s) = (scheme, s) := by
  have hcolon : colon ∉ scheme := fun hmem => by cases isSchemeChar_of_mem h _ hmem
  rw [splitScheme, cut_append_cons hcolon]
  exact if_pos h

/-- A string without a scheme that goes on after a character of no scheme. -/
theorem NoScheme.append {p q : List UInt8} (h : NoScheme p)
    (hq : ∀ c, q.head? = some c → isSchemeChar c = false ∧ c ≠ colon) : NoScheme (p ++ q) := by
  intro w t hcut
  obtain ⟨hw, heq⟩ := cut_eq_some_iff.mp hcut
  rcases List.append_eq_append_iff.mp heq with ⟨u, rfl, hu⟩ | ⟨u, rfl, hu⟩
  · -- the colon is after `p`
    cases u with
    | nil => exact absurd rfl (hq colon (by rw [hu]; rfl)).2
    | cons c u =>
      rw [Bool.eq_false_iff]
      intro hvalid
      have hmem := isSchemeChar_of_mem hvalid c (by simp)
      rw [(hq c (by rw [hu]; rfl)).1] at hmem
      cases hmem
  · cases u with
    | nil => exact absurd rfl (hq colon (by rw [← List.nil_append q, ← hu]; rfl)).2
    | cons c u =>
      obtain ⟨rfl, -⟩ := List.cons_eq_cons.mp hu
      exact h w u (cut_append_cons hw u)

theorem noScheme_slash (s : List UInt8) : NoScheme (slash :: s) := by
  intro p q hcut
  obtain ⟨-, heq⟩ := cut_eq_some_iff.mp hcut
  cases p with
  | nil => rfl
  | cons c p =>
    obtain ⟨rfl, -⟩ := List.cons_eq_cons.mp heq
    rfl

theorem splitScheme_spec (url : List UInt8) :
    (splitScheme url = ([], url) ∧ NoScheme url) ∨
      ∃ scheme s, splitScheme url = (scheme, s) ∧ validScheme scheme = true := by
  cases hcut : cut colon url with
  | none =>
    refine .inl ⟨by rw [splitScheme, hcut], fun p q h => ?_⟩
    rw [hcut] at h
    cases h
  | some pq =>
    obtain ⟨p, q⟩ := pq
    by_cases hvalid : validScheme p = true
    · exact .inr ⟨p, q, by rw [splitScheme, hcut]; exact if_pos hvalid, hvalid⟩
    · refine .inl ⟨by rw [splitScheme, hcut]; exact if_neg hvalid, fun p' q' h => ?_⟩
      rw [hcut] at h
      cases h
      simpa using hvalid

/-! ### The authority -/

/-- What `takeWhile` leaves starts with a character that it does not take. -/
theorem splitAuthority_append {a : List UInt8} (ha : ∀ c ∈ a, isAuthorityEnd c = false)
    {s : List UInt8} (hs : ∀ c, s.head? = some c → isAuthorityEnd c = true) :
    splitAuthority (slash :: slash :: (a ++ s)) = (true, a, s) := by
  have htake : ∀ c ∈ a, (!isAuthorityEnd c) = true := fun c hc => by rw [ha c hc]; rfl
  have hend : s.takeWhile (fun c => !isAuthorityEnd c) = [] ∧
      s.dropWhile (fun c => !isAuthorityEnd c) = s := by
    cases s with
    | nil => exact ⟨rfl, rfl⟩
    | cons c s =>
      have hc : (!isAuthorityEnd c) = false := by rw [hs c rfl]; rfl
      exact ⟨List.takeWhile_cons_of_neg (by simp [hc]),
        List.dropWhile_cons_of_neg (by simp [hc])⟩
  rw [splitAuthority, if_pos (by simp)]
  simp only [List.drop_succ_cons, List.drop_zero]
  rw [List.takeWhile_append_of_pos htake, List.dropWhile_append_of_pos htake, hend.1, hend.2,
    List.append_nil]

theorem splitUserinfo_encode {userinfo hostPort : List UInt8} (h : atSign ∉ hostPort) :
    splitUserinfo (encodeUserinfo userinfo ++ hostPort) = (userinfo, hostPort) := by
  rw [splitUserinfo, encodeUserinfo]
  split
  · rename_i hnil
    rw [List.nil_append, cutLast_eq_none_iff.mpr h, hnil]
    rfl
  · rw [List.append_assoc, List.singleton_append, cutLast_append_cons h]
    rfl

theorem convertPort_decimalInt (port : Int32) :
    convertPort (decimalInt port.toInt) = some port := by
  have hle := port.le_toInt
  have hlt := port.toInt_lt
  rw [convertPort, toSigned_decimalInt (by omega) (by omega), Option.map_some, Int32.ofInt_toInt]

/-- A host that is read back. -/
def GoodHost (host : List UInt8) : Prop :=
  (colon ∈ host → closeBracket ∉ host) ∧ (host.head? = some openBracket → colon ∈ host)

theorem parseHostPort_bracketed {host : List UInt8} (h : closeBracket ∉ host) (port : Int32) :
    parseHostPort (openBracket :: (host ++ closeBracket :: encodePort port)) = (host, port) := by
  have hnot : closeBracket ∉ openBracket :: host := by
    rw [List.mem_cons, not_or]
    exact ⟨by decide, h⟩
  have hcut : cut closeBracket (openBracket :: (host ++ closeBracket :: encodePort port)) =
      some (openBracket :: host, encodePort port) := cut_append_cons hnot _
  rw [parseHostPort, List.head?_cons, if_pos rfl, hcut, encodePort]
  by_cases hport : port = 0
  · rw [if_pos hport, hport]
    rfl
  · rw [if_neg hport]
    simp [convertPort_decimalInt]

theorem parseHostPort_bare {host : List UInt8} (hcolon : colon ∉ host)
    (hbracket : host.head? ≠ some openBracket) (port : Int32) :
    parseHostPort (host ++ encodePort port) = (host, port) := by
  by_cases hport : port = 0
  · rw [encodePort, if_pos hport, List.append_nil, parseHostPort, if_neg hbracket,
      cutLast_eq_none_iff.mpr hcolon, hport]
  · have hdigits : colon ∉ decimalInt port.toInt := not_mem_decimalInt rfl (by decide)
    have hhead : (host ++ colon :: decimalInt port.toInt).head? ≠ some openBracket := by
      cases host with
      | nil => exact fun h => by cases h
      | cons c host => exact hbracket
    rw [encodePort, if_neg hport, parseHostPort, if_neg hhead, cutLast_append_cons hdigits]
    simp only [convertPort_decimalInt]

/-- The host ends at the first closing bracket. -/
theorem parseHostPort_cut {host : List UInt8} (h : closeBracket ∉ host) (after : List UInt8) :
    (parseHostPort (openBracket :: (host ++ closeBracket :: after))).1 = host := by
  have hnot : closeBracket ∉ openBracket :: host := by
    rw [List.mem_cons, not_or]
    exact ⟨by decide, h⟩
  have hcut : cut closeBracket (openBracket :: (host ++ closeBracket :: after)) =
      some (openBracket :: host, after) := cut_append_cons hnot _
  rw [parseHostPort, List.head?_cons, if_pos rfl, hcut]
  rfl

theorem parseHostPort_of_not_mem {s : List UInt8} (h : closeBracket ∉ s) :
    parseHostPort (openBracket :: s) = ([], 0) := by
  have hnot : closeBracket ∉ openBracket :: s := by
    rw [List.mem_cons, not_or]
    exact ⟨by decide, h⟩
  rw [parseHostPort, List.head?_cons, if_pos rfl, cut_eq_none_iff.mpr hnot]

theorem closeBracket_not_mem_encodePort (port : Int32) : closeBracket ∉ encodePort port := by
  rw [encodePort]
  split
  · exact List.not_mem_nil
  · rw [List.mem_cons, not_or]
    exact ⟨by decide, not_mem_decimalInt rfl (by decide)⟩

/-- A closing bracket in the host ends it. -/
theorem parseHostPort_ne_of_mem {host s t : List UInt8} (port : Int32)
    (h : closeBracket ∈ s) (hlength : s.length ≤ host.length) :
    parseHostPort (openBracket :: (s ++ t)) ≠ (host, port) := by
  intro heq
  obtain ⟨⟨b, a⟩, hcut⟩ := Option.ne_none_iff_exists'.mp (cut_eq_none_iff.not.mpr (not_not.mpr h))
  obtain ⟨hb, rfl⟩ := cut_eq_some_iff.mp hcut
  rw [List.append_assoc, List.cons_append] at heq
  have hhost := parseHostPort_cut hb (a ++ t)
  rw [heq] at hhost
  rw [List.length_append, List.length_cons] at hlength
  have hlengths := congrArg List.length hhost
  dsimp only at hlengths
  omega

/-- Which hosts are read back. -/
theorem parseHostPort_encode_iff (host : List UInt8) (port : Int32) :
    parseHostPort (encodeHostPort host port) = (host, port) ↔ GoodHost host := by
  by_cases hcolon : colon ∈ host
  · rw [encodeHostPort, if_pos hcolon, List.cons_append, List.cons_append, List.append_assoc,
      List.singleton_append]
    by_cases hbracket : closeBracket ∈ host
    · exact iff_of_false (parseHostPort_ne_of_mem port hbracket le_rfl)
        fun h => h.1 hcolon hbracket
    · exact iff_of_true (parseHostPort_bracketed hbracket port)
        ⟨fun _ => hbracket, fun _ => hcolon⟩
  · rw [encodeHostPort, if_neg hcolon]
    by_cases hopen : host.head? = some openBracket
    · refine iff_of_false ?_ fun h => hcolon (h.2 hopen)
      cases host with
      | nil => cases hopen
      | cons c host =>
        obtain rfl := Option.some.inj hopen
        rw [List.cons_append]
        by_cases hbracket : closeBracket ∈ host
        · exact parseHostPort_ne_of_mem port hbracket (Nat.le_succ _)
        · have hnot : closeBracket ∉ host ++ encodePort port := by
            rw [List.mem_append, not_or]
            exact ⟨hbracket, closeBracket_not_mem_encodePort port⟩
          rw [parseHostPort_of_not_mem hnot]
          intro heq
          cases heq
    · exact iff_of_true (parseHostPort_bare hcolon hopen port)
        ⟨fun h => absurd h hcolon, fun h => absurd h hopen⟩

/-! ### The query and the fragment -/

theorem not_mem_strEncode {d : UInt8} (hd : isUnreserved d = false) (hpercent : d ≠ percent)
    (hdigit : hexValue? d = none) (s : List UInt8) : d ∉ strEncode s :=
  not_mem_percentEncode hd hpercent hdigit s

theorem strDecode_strEncode (s : List UInt8) : strDecode (strEncode s) = s :=
  percentDecode_percentEncode rfl s

/-- A parameter of the query. -/
def encodeParam (e : List UInt8 × List UInt8) : List UInt8 :=
  strEncode e.1 ++ equal :: strEncode e.2

theorem not_mem_encodeParam {d : UInt8} (hd : isUnreserved d = false) (hpercent : d ≠ percent)
    (hdigit : hexValue? d = none) (hequal : d ≠ equal) (e : List UInt8 × List UInt8) :
    d ∉ encodeParam e := by
  rw [encodeParam, List.mem_append, List.mem_cons, not_or, not_or]
  exact ⟨not_mem_strEncode hd hpercent hdigit _, hequal, not_mem_strEncode hd hpercent hdigit _⟩

theorem parseQuery_encode {params : OrderedMap (List UInt8) (List UInt8)}
    (hne : params.entries ≠ []) (hkeys : ∀ e ∈ params.entries, e.1 ≠ []) :
    parseQuery ([ampersand].intercalate (params.entries.map encodeParam)) = params := by
  have hparams : ∀ w ∈ params.entries.map encodeParam, ampersand ∉ w := by
    intro w hw
    obtain ⟨e, -, rfl⟩ := List.mem_map.mp hw
    exact not_mem_encodeParam rfl (by decide) rfl (by decide) e
  have hsplit : split ([ampersand].intercalate (params.entries.map encodeParam)) [ampersand] =
      params.entries.map encodeParam := by
    rw [split_eq (List.cons_ne_nil _ _), pieces_char_intercalate (by simpa using hne) hparams,
      List.filter_eq_self]
    intro w hw
    obtain ⟨e, -, rfl⟩ := List.mem_map.mp hw
    simp [encodeParam]
  have hset : ∀ (m : OrderedMap (List UInt8) (List UInt8)) (e : List UInt8 × List UInt8),
      e.1 ≠ [] → (if (splitPair (encodeParam e) equal).1 = [] then m
        else m.set (strDecode (splitPair (encodeParam e) equal).1)
          (strDecode (splitPair (encodeParam e) equal).2)) = m.set e.1 e.2 := by
    intro m e he
    have hkey : strEncode e.1 ≠ [] := percentEncode_eq_nil_iff.not.mpr he
    rw [encodeParam, splitPair_append_cons (not_mem_strEncode rfl (by decide) rfl _) hkey]
    dsimp only
    rw [if_neg hkey, strDecode_strEncode, strDecode_strEncode]
  rw [parseQuery, hsplit, List.foldl_map]
  refine Eq.trans ?_ (OrderedMap.setAll_entries params)
  exact List.foldl_ext _ _ _ fun m e he => hset m e (hkeys e he)

theorem splitQuery_encode {path : List UInt8}
    {params : OrderedMap (List UInt8) (List UInt8)} (hpath : question ∉ path)
    (hkeys : ∀ e ∈ params.entries, e.1 ≠ []) :
    splitQuery (path ++ encodeQuery params) = (path, params) := by
  by_cases hne : params.entries = []
  · rw [encodeQuery, if_pos hne, List.append_nil, splitQuery, cut_eq_none_iff.mpr hpath]
    exact congrArg (Prod.mk path) (OrderedMap.ext hne.symm)
  · rw [encodeQuery, if_neg hne, splitQuery, cut_append_cons hpath]
    exact congrArg (Prod.mk path) (parseQuery_encode hne hkeys)

theorem hash_not_mem_encodeQuery (params : OrderedMap (List UInt8) (List UInt8)) :
    hash ∉ encodeQuery params := by
  rw [encodeQuery]
  split
  · exact List.not_mem_nil
  · rw [List.mem_cons, not_or]
    refine ⟨by decide, not_mem_intercalate (by decide) fun w hw => ?_⟩
    obtain ⟨e, -, rfl⟩ := List.mem_map.mp hw
    exact not_mem_encodeParam rfl (by decide) rfl (by decide) e

theorem splitFragment_encode {s fragment : List UInt8} (h : hash ∉ s) :
    splitFragment (s ++ encodeFragment fragment) = (s, fragment) := by
  rw [splitFragment, encodeFragment]
  split
  · rename_i hnil
    rw [List.append_nil, cut_eq_none_iff.mpr h, hnil]
    rfl
  · rw [cut_append_cons h]
    rfl

end Sihd.Util.Url

/-!
## Escapes

`strDecodeLoop` is the loop of `str_decode` with its indices; it fails when it
reads behind the string.
-/

namespace Sihd.Util.Url

open Str

/-- The loop of `str_decode` from an index on. -/
def strDecodeLoop (s : List UInt8) (i : Nat) : Option (List UInt8) :=
  if i < s.length then do
    let c ← s[i]?
    if c = percent ∧ i + 2 < s.length then
      let a ← s[i + 1]?
      let b ← s[i + 2]?
      match escaped? a b with
      | some d => return d :: (← strDecodeLoop s (i + 3))
      | none => return c :: (← strDecodeLoop s (i + 1))
    else return c :: (← strDecodeLoop s (i + 1))
  else some []
  termination_by s.length - i

/-- Unreserved characters and well-formed escapes. -/
inductive Encoded : List UInt8 → Prop
  | nil : Encoded []
  | unreserved {c : UInt8} {s : List UInt8} (hc : isUnreserved c = true) (h : Encoded s) :
      Encoded (c :: s)
  | escape {a b : UInt8} {s : List UInt8} (ha : (hexValue? a).isSome = true)
      (hb : (hexValue? b).isSome = true) (h : Encoded s) : Encoded (percent :: a :: b :: s)

theorem encoded_strEncode (s : List UInt8) : Encoded (strEncode s) := by
  induction s with
  | nil => exact .nil
  | cons c s ih =>
    have hlt : c.toNat < 256 := c.toNat_lt
    have hdigit {n : Nat} (hn : n < 16) : (hexValue? (hexDigit n)).isSome = true := by
      rw [hexValue?_hexDigit hn]
      rfl
    rw [strEncode, percentEncode]
    split
    · rename_i hc
      exact .unreserved hc ih
    · exact .escape (hdigit (by omega)) (hdigit (by omega)) ih

/-- The loop reads inside the string, and decodes what is left of it. -/
theorem strDecodeLoop_eq (s : List UInt8) (i : Nat) :
    strDecodeLoop s i = some (strDecode (s.drop i)) := by
  induction hn : s.length - i using Nat.strong_induction_on generalizing i with
  | _ n ih =>
    have hnext (k : Nat) (hlt : i < k) (hi : i < s.length) :
        strDecodeLoop s k = some (strDecode (s.drop k)) := ih _ (by omega) _ rfl
    rw [strDecodeLoop]
    by_cases hi : i < s.length
    · rw [if_pos hi, List.getElem?_eq_getElem hi, List.drop_eq_getElem_cons hi]
      dsimp only [Option.bind_eq_bind, Option.bind_some]
      rw [hnext (i + 1) (by omega) hi]
      by_cases hc : s[i] = percent ∧ i + 2 < s.length
      · have hdrop : s.drop (i + 1) = s[i + 1] :: s[i + 2] :: s.drop (i + 3) := by
          rw [List.drop_eq_getElem_cons (by omega), List.drop_eq_getElem_cons (by omega)]
        rw [if_pos hc, List.getElem?_eq_getElem (by omega), List.getElem?_eq_getElem (by omega),
          hc.1, hdrop]
        dsimp only [Option.bind_eq_bind, Option.bind_some]
        have hdecode := percentDecode_percent s[i + 1] s[i + 2] (s.drop (i + 3))
        rw [← strDecode] at hdecode
        rw [hnext (i + 3) (by omega) hi, hdecode]
        cases escaped? s[i + 1] s[i + 2] <;> rfl
      · rw [if_neg hc]
        dsimp only [Option.bind_eq_bind, Option.bind_some]
        by_cases hpercent : s[i] = percent
        · -- an escape would need two more characters
          have hnot : ¬ IsEscape (s.drop (i + 1)) := by
            rintro ⟨a, b, t, heq, -⟩
            have hlength := congrArg List.length heq
            rw [List.length_drop, List.length_cons, List.length_cons] at hlength
            exact hc ⟨hpercent, by omega⟩
          rw [hpercent, strDecode, strDecode, percentDecode_of_not_isEscape hnot]
          rfl
        · rw [strDecode, strDecode, percentDecode_cons hpercent]
          rfl
    · rw [if_neg hi, List.drop_eq_nil_of_le (by omega)]
      rfl

/-- Encoded strings are decoded to what they were, and any string is read inside its bounds: a
`%` without two digits stays as it is. -/
theorem strDecode_spec :
    (∀ s, strDecode (strEncode s) = s ∧ Encoded (strEncode s)) ∧
      (∀ s, strDecodeLoop s 0 = some (strDecode s)) ∧
      ∀ p s, ¬ IsEscape s → strDecode (p ++ percent :: s) = strDecode p ++ percent :: strDecode s :=
  ⟨fun s => ⟨strDecode_strEncode s, encoded_strEncode s⟩, fun s => strDecodeLoop_eq s 0,
    fun p _ h => percentDecode_append_percent h p⟩

end Sihd.Util.Url
