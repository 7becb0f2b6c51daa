import Sihd.Util.Url.Parsed

/-!
# Parsing a url that was encoded

A url is parsed to the same parts after it was parsed and encoded, unless the
brackets of its host are not read back.
-/

namespace Sihd.Util.Url

open Str

/-- A url with an authority, cut around its host and port. -/
structure HostPortIn (url scheme userinfo hostPort rest : List UInt8) : Prop where
  eq : url = scheme ++ slash :: slash :: (userinfo ++ hostPort ++ rest)
  scheme_eq : scheme = [] ∨ ∃ s, validScheme s = true ∧ scheme = s ++ [colon]
  userinfo_eq : userinfo = [] ∨ ∃ u, userinfo = u ++ [atSign]
  authority : ∀ c ∈ userinfo ++ hostPort, isAuthorityEnd c = false
  atSign_not_mem : atSign ∉ hostPort
  head_rest : ∀ c, rest.head? = some c → isAuthorityEnd c = true

/-- Two brackets before a host without a colon, or a closing bracket in a host
with a colon that is not bracketed. Such a host ends at the last colon when a
port is after it. -/
def Breaks (hostPort : List UInt8) : Prop :=
  (∃ x y, hostPort = openBracket :: openBracket :: (x ++ closeBracket :: y) ∧
      colon ∉ x ∧ closeBracket ∉ x) ∨
    (hostPort.head? ≠ some openBracket ∧
      ((∃ x d, hostPort = x ++ colon :: d ∧ colon ∉ d ∧ convertPort d ≠ none ∧
          colon ∈ x ∧ closeBracket ∈ x) ∨
        ((∀ x d, hostPort = x ++ colon :: d → colon ∉ d → convertPort d = none) ∧
          colon ∈ hostPort ∧ closeBracket ∈ hostPort)))

theorem goodHost_iff_of_head? {host : List UInt8} (h : host.head? ≠ some openBracket) :
    GoodHost host ↔ ¬ (colon ∈ host ∧ closeBracket ∈ host) := by
  rw [GoodHost, not_and]
  exact and_iff_left fun hopen => absurd hopen h

theorem goodHost_bracketed_iff (a : List UInt8) :
    GoodHost (parseHostPort (openBracket :: a)).1 ↔
      ¬ ∃ x y, a = openBracket :: (x ++ closeBracket :: y) ∧ colon ∉ x ∧ closeBracket ∉ x := by
  cases hcut : cut closeBracket a with
  | none =>
    have hnot := cut_eq_none_iff.mp hcut
    rw [parseHostPort_of_not_mem hnot]
    refine iff_of_true ⟨fun h => (by cases h), fun h => (by cases h)⟩ ?_
    rintro ⟨x, y, rfl, -⟩
    exact hnot (by simp)
  | some p =>
    obtain ⟨host, after⟩ := p
    obtain ⟨hnot, rfl⟩ := cut_eq_some_iff.mp hcut
    rw [parseHostPort_cut hnot]
    have hgood : GoodHost host ↔ (host.head? = some openBracket → colon ∈ host) :=
      and_iff_right fun _ => hnot
    rw [hgood, ← not_iff_not, not_not, Classical.not_imp]
    constructor
    · rintro ⟨hopen, hcolon⟩
      cases host with
      | nil => cases hopen
      | cons c x =>
        obtain rfl := Option.some.inj hopen
        rw [List.mem_cons, not_or] at hcolon hnot
        exact ⟨x, after, rfl, hcolon.2, hnot.2⟩
    · rintro ⟨x, y, heq, hcolon, hbracket⟩
      have hcut' : cut closeBracket (host ++ closeBracket :: after) =
          some (openBracket :: x, y) := by
        rw [heq]
        refine cut_append_cons (w := openBracket :: x) ?_ y
        rw [List.mem_cons, not_or]
        exact ⟨by decide, hbracket⟩
      rw [hcut, Option.some.injEq, Prod.mk.injEq] at hcut'
      obtain ⟨rfl, -⟩ := hcut'
      refine ⟨rfl, ?_⟩
      rw [List.mem_cons, not_or]
      exact ⟨by decide, hcolon⟩

theorem goodHost_iff (a : List UInt8) : GoodHost (parseHostPort a).1 ↔ ¬ Breaks a := by
  by_cases hopen : a.head? = some openBracket
  · cases a with
    | nil => cases hopen
    | cons c a =>
      obtain rfl := Option.some.inj hopen
      rw [goodHost_bracketed_iff, Breaks]
      simp
  · have hbracketed : ¬ ∃ x y, a = openBracket :: openBracket :: (x ++ closeBracket :: y) ∧
        colon ∉ x ∧ closeBracket ∉ x := by
      rintro ⟨x, y, rfl, -⟩
      exact hopen rfl
    rw [Breaks, or_iff_right hbracketed, and_iff_right hopen]
    cases hcut : cutLast colon a with
    | none =>
      have hnot := cutLast_eq_none_iff.mp hcut
      rw [parseHostPort, if_neg hopen, hcut, goodHost_iff_of_head? hopen]
      refine iff_of_true (fun h => hnot h.1) ?_
      rintro (⟨x, d, rfl, -⟩ | ⟨-, hmem, -⟩)
      · exact hnot (by simp)
      · exact hnot hmem
    | some p =>
      obtain ⟨host, after⟩ := p
      obtain ⟨hafter, rfl⟩ := cutLast_eq_some_iff.mp hcut
      -- the last colon is the one that was cut at
      have hlast : ∀ x d, host ++ colon :: after = x ++ colon :: d → colon ∉ d →
          x = host ∧ d = after := by
        intro x d heq hd
        have hcut' := cutLast_append_cons hd x
        rw [← heq, hcut, Option.some.injEq, Prod.mk.injEq] at hcut'
        exact ⟨hcut'.1.symm, hcut'.2.symm⟩
      rw [parseHostPort, if_neg hopen, hcut]
      dsimp only
      cases hport : convertPort after with
      | some port =>
        have hhead : host.head? ≠ some openBracket := by
          cases host with
          | nil => exact fun h => by cases h
          | cons c host => exact hopen
        rw [goodHost_iff_of_head? hhead, not_iff_not]
        constructor
        · rintro ⟨hcolon, hbracket⟩
          exact .inl ⟨host, after, rfl, hafter, by rw [hport]; exact Option.some_ne_none _,
            hcolon, hbracket⟩
        · rintro (⟨x, d, heq, hd, -, hcolon, hbracket⟩ | ⟨hnone, -⟩)
          · obtain ⟨rfl, rfl⟩ := hlast x d heq hd
            exact ⟨hcolon, hbracket⟩
          · rw [hnone host after rfl hafter] at hport
            cases hport
      | none =>
        rw [goodHost_iff_of_head? hopen, not_iff_not]
        constructor
        · rintro ⟨hcolon, hbracket⟩
          refine .inr ⟨fun x d heq hd => ?_, hcolon, hbracket⟩
          rw [(hlast x d heq hd).2, hport]
        · rintro (⟨x, d, heq, hd, hsome, -⟩ | ⟨-, hmem⟩)
          · rw [(hlast x d heq hd).2] at hsome
            exact absurd hport hsome
          · exact hmem

/-- The parts of a url that is cut around its host and port. -/
theorem HostPortIn.parse {url scheme userinfo hostPort rest : List UInt8}
    (h : HostPortIn url scheme userinfo hostPort rest) :
    (splitUserinfo (splitAuthority (splitScheme url).2).2.1).2 = hostPort := by
  have hscheme : (splitScheme url).2 = slash :: slash :: (userinfo ++ hostPort ++ rest) := by
    rw [h.eq]
    rcases h.scheme_eq with rfl | ⟨s, hvalid, rfl⟩
    · rw [List.nil_append, splitScheme_of_noScheme (noScheme_slash _)]
    · rw [List.append_assoc, List.singleton_append, splitScheme_append hvalid]
  rw [hscheme, splitAuthority_append h.authority h.head_rest]
  dsimp only
  rw [splitUserinfo]
  rcases h.userinfo_eq with rfl | ⟨u, rfl⟩
  · rw [List.nil_append, cutLast_eq_none_iff.mpr h.atSign_not_mem]
    rfl
  · rw [List.append_assoc, List.singleton_append, cutLast_append_cons h.atSign_not_mem]
    rfl

theorem exists_hostPortIn {url : List UInt8} (h : (parse url).hasAuthority = true) :
    ∃ scheme userinfo rest, HostPortIn url scheme userinfo
      (splitUserinfo (splitAuthority (splitScheme url).2).2.1).2 rest := by
  obtain ⟨scheme, hurl, hscheme⟩ : ∃ scheme, url = scheme ++ (splitScheme url).2 ∧
      (scheme = [] ∨ ∃ s, validScheme s = true ∧ scheme = s ++ [colon]) := by
    rw [splitScheme]
    split
    · rename_i p q hcut
      split
      · rename_i hvalid
        refine ⟨p ++ [colon], ?_, .inr ⟨p, hvalid, rfl⟩⟩
        rw [List.append_assoc]
        exact (cut_eq_some_iff.mp hcut).2
      · exact ⟨[], rfl, .inl rfl⟩
    · exact ⟨[], rfl, .inl rfl⟩
  rcases splitAuthority_spec (splitScheme url).2 with ⟨heq, -⟩ | ⟨a, t, hs, heq, ha, ht⟩
  · have hfalse : (parse url).hasAuthority = false := congrArg Prod.fst heq
    rw [h] at hfalse
    cases hfalse
  · obtain ⟨userinfo, hu, hat, huserinfo⟩ := splitUserinfo_spec a
    rw [heq]
    refine ⟨scheme, userinfo, t, ?_, hscheme, ?_, ?_, hat, ht⟩
    · rw [← hu, ← hs]
      exact hurl
    · exact huserinfo.imp And.right fun h => ⟨_, h⟩
    · rw [← hu]
      exact ha

/-- A parsed url is encoded and parsed to itself exactly when the brackets of
its host are read back. -/
theorem parse_encode_parse_iff (url : List UInt8) :
    parse (parse url).encode = parse url ↔
      ¬ ∃ scheme userinfo hostPort rest,
        HostPortIn url scheme userinfo hostPort rest ∧ Breaks hostPort := by
  rw [(parsed_parse url).parse_encode_iff]
  change GoodHost (parseHostPort (splitUserinfo (splitAuthority (splitScheme url).2).2.1).2).1 ↔ _
  rw [goodHost_iff, not_iff_not]
  constructor
  · intro hbreaks
    have hauth : (parse url).hasAuthority = true := by
      rcases splitAuthority_spec (splitScheme url).2 with ⟨heq, -⟩ | ⟨a, t, -, heq, -⟩
      · have hnil : ¬ Breaks [] :=
          (goodHost_iff []).mp ⟨fun h => (by cases h), fun h => (by cases h)⟩
        rw [heq] at hbreaks
        exact absurd hbreaks hnil
      · exact congrArg Prod.fst heq
    obtain ⟨scheme, userinfo, rest, h⟩ := exists_hostPortIn hauth
    exact ⟨scheme, userinfo, _, rest, h, hbreaks⟩
  · rintro ⟨scheme, userinfo, hostPort, rest, h, hbreaks⟩
    rwa [h.parse]

theorem not_parse_encode_parse : ¬ ∀ url, parse (parse url).encode = parse url := by
  intro h
  -- `//[[x]`
  have hhost := congrArg Url.host (h [47, 47, 91, 91, 120, 93])
  revert hhost
  decide

end Sihd.Util.Url
