import IW4x.XCurl.Redirects

/-!
# A URL in parts

A URL is put together from a scheme, which may be missing, an authority and what follows it. The
redirected URL has what follows the authority, whatever that is, as long as there is a scheme.
-/

namespace IW4x.XCurl

/-- The parts of a URL, the scheme without its `://`. -/
structure UrlParts where
  scheme : Option Str
  authority : Str
  rest : Str
  scheme_plain : ∀ s ∈ scheme, ∀ c ∈ s, delimits c = false
  authority_plain : ∀ c ∈ authority, delimits c = false
  rest_delimited : ∀ c ∈ rest.head?, delimits c = true

namespace UrlParts

def url (p : UrlParts) : Str :=
  (match p.scheme with
    | some s => s ++ "://".toList
    | none => []) ++ p.authority ++ p.rest

variable (p : UrlParts)

theorem dropWhile_authority :
    (p.authority ++ p.rest).dropWhile (!delimits ·) = p.rest := by
  rw [List.dropWhile_append_of_pos fun c hc => by simp [p.authority_plain c hc]]
  cases hrest : p.rest with
  | nil => rfl
  | cons c rest =>
    have hc := p.rest_delimited c (by simp [hrest])
    exact List.dropWhile_cons_of_neg (by simp [hc])

theorem carried_of_scheme (h : p.scheme.isSome = true) : carried p.url = p.rest := by
  obtain ⟨s, hs⟩ := Option.isSome_iff_exists.mp h
  have hurl : p.url = s ++ ':' :: '/' :: '/' :: (p.authority ++ p.rest) := by
    simp [url, hs]
  rw [carried, hurl, afterFirst_name _ (p.scheme_plain s hs)]
  exact p.dropWhile_authority

theorem url_of_none (h : p.scheme = none) : p.url = p.authority ++ p.rest := by
  simp [url, h]

theorem carried_of_no_mark (h : p.scheme = none) (hmark : ¬ "://".toList <:+: p.url) :
    carried p.url = p.rest := by
  rw [carried, afterFirst_eq_none.mpr hmark, url_of_none p h]
  exact p.dropWhile_authority

theorem carried_lt_of_mark (h : p.scheme = none) (hmark : "://".toList <:+: p.url) :
    (carried p.url).length < p.rest.length := by
  cases hafter : afterFirst "://".toList p.url with
  | none => exact absurd hmark (afterFirst_eq_none.mp hafter)
  | some after =>
    obtain ⟨before, hurl⟩ := afterFirst_eq_some hafter
    have hsplit : p.url = (before ++ [':']) ++ '/' :: '/' :: after := by
      rw [hurl]
      simp
    have hlt := length_lt_dropWhile (c := '/') rfl (before ++ [':']) ('/' :: after)
    have hle := length_dropWhile_le (!delimits ·) after
    rw [← hsplit, url_of_none p h, dropWhile_authority, List.length_cons] at hlt
    rw [carried, hafter, Option.getD_some]
    omega

/-- The redirected URL keeps all that follows the authority, and nothing before it, if and only if
there is a scheme, or no `://` at all. -/
theorem redirect_parts_iff (d : Destination)
    (fits : (origin d ++ p.rest).length ≤ urlLimit - 1) :
    redirect p.url d = origin d ++ p.rest ↔
      p.scheme.isSome = true ∨ ¬ "://".toList <:+: p.url := by
  have hwhole : text urlLimit (origin d ++ p.rest) = origin d ++ p.rest :=
    List.take_of_length_le fits
  rw [redirect_eq]
  constructor
  · intro heq
    by_contra hneither
    obtain ⟨hscheme, hmark⟩ := not_or.mp hneither
    have hlt := carried_lt_of_mark p (by simpa using hscheme) (not_not.mp hmark)
    have hlength := congrArg List.length heq
    simp only [text, List.length_take, List.length_append] at hlength
    omega
  · rintro (hscheme | hmark)
    · rw [carried_of_scheme p hscheme, hwhole]
    · cases hscheme : p.scheme with
      | some s => rw [carried_of_scheme p (by simp [hscheme]), hwhole]
      | none => rw [carried_of_no_mark p hscheme hmark, hwhole]

/-- A URL in the query of another. -/
def nested (scheme : Option Str) (h : ∀ s ∈ scheme, ∀ c ∈ s, delimits c = false) : UrlParts where
  scheme := scheme
  authority := "h.com".toList
  rest := "/p?u=https://i.com/q".toList
  scheme_plain := h
  authority_plain := by simp [delimits]
  rest_delimited := by simp [delimits]

theorem port_inRange : 0 < 8080 ∧ 8080 ≤ 65535 := by decide

def place : Destination := ⟨"platform".toList, 8080, port_inRange⟩

theorem redirect_parts_iff_nested :
    redirect (nested (some "https".toList) (by simp [delimits])).url place =
      "http://platform:8080/p?u=https://i.com/q".toList :=
  (redirect_parts_iff (nested (some "https".toList) (by simp [delimits])) place
    (by decide)).mpr (.inl rfl)

/-- Without a scheme the URL in the query is the one that is redirected. -/
theorem redirect_parts_fails :
    ¬ ∀ (p : UrlParts) (d : Destination), (origin d ++ p.rest).length ≤ urlLimit - 1 →
      redirect p.url d = origin d ++ p.rest := by
  intro claim
  have h := claim (nested none (by simp)) place (by decide)
  exact absurd h (by decide)

end UrlParts

end IW4x.XCurl
