import IW4x.XCurl.Transfer

/-!
# The services of this client

The token entry point asks `served` about the URL that the game gave it, a transfer decides on the
URL that it has room for. Both look for the same texts in what they are given.
-/

namespace IW4x.XCurl

/-- The texts that a URL must contain to be for a service: those of the endpoint, which is asked by
`GET`, and where a platform is installed those of its two services. -/
def services (installed : Option Destination) (method : Str) : List (List Str) :=
  (if method = "GET".toList then ["privacy.xboxlive.com".toList :: ["/permission/validate".toList]]
    else []) ++
  if installed.isSome then
    ["social.xboxlive.com".toList :: ["/people".toList],
      ["multiplayeractivity.xboxlive.com".toList]]
  else []

def Names (services : List (List Str)) (url : Str) : Prop :=
  ∃ texts ∈ services, ∀ t ∈ texts, t <:+: url

/-- A service that a URL of any length names is named within what a transfer keeps of it. -/
def NamedEarly (installed : Option Destination) (method url : Str) : Prop :=
  Names (services installed method) url →
    Names (services installed method) (url.take (urlLimit - 1))

def requested (method url : Str) : Transfer :=
  (Transfer.opened.set (.customrequest (some method))).set (.url (some url))

theorem Names.mono {services : List (List Str)} {url part : Str} (h : Names services part)
    (within : part <:+: url) : Names services url := by
  obtain ⟨texts, mem, all⟩ := h
  exact ⟨texts, mem, fun t ht => (all t ht).trans within⟩

theorem answered_iff (method url : Str) :
    answered method url = true ↔ method = "GET".toList ∧
      "privacy.xboxlive.com".toList <:+: url ∧ "/permission/validate".toList <:+: url := by
  simp only [answered, lookup, endpoints, List.find?_isSome, List.mem_singleton, exists_eq_left,
    containsStr, Bool.and_eq_true, decide_eq_true_eq, and_assoc]

theorem platform_isSome_iff (installed : Option Destination) (url : Str) :
    (platform installed url).isSome = true ↔ installed.isSome = true ∧
      ("social.xboxlive.com".toList <:+: url ∧ "/people".toList <:+: url ∨
        "multiplayeractivity.xboxlive.com".toList <:+: url) := by
  have asked : redirected url = true ↔
      "social.xboxlive.com".toList <:+: url ∧ "/people".toList <:+: url ∨
        "multiplayeractivity.xboxlive.com".toList <:+: url := by
    simp only [redirected, containsStr, Bool.or_eq_true, Bool.and_eq_true, decide_eq_true_eq]
  rw [← asked, platform]
  cases redirected url <;> simp

theorem served_iff (installed : Option Destination) (method url : Str) :
    served installed method url = true ↔ Names (services installed method) url := by
  rw [served, Bool.or_eq_true, answered_iff, platform_isSome_iff, Names, services]
  generalize "GET".toList = plain
  generalize "privacy.xboxlive.com".toList = privacy
  generalize "/permission/validate".toList = validate
  generalize "social.xboxlive.com".toList = social
  generalize "/people".toList = people
  generalize "multiplayeractivity.xboxlive.com".toList = activity
  by_cases get : method = plain <;> cases installed <;> simp [get]

theorem begun_iff (installed : Option Destination) (t : Transfer) :
    ((t.begin installed true).2.here = true ∨ (t.redirection installed).isSome = true) ↔
      served installed t.method t.url = true := by
  rw [(t.begin_same installed true).2.2.2, served, Bool.or_eq_true, ← answer_isSome]
  cases h : XCurl.answer t.method t.url <;> simp [Transfer.redirection, h]

/-- `served` agrees with what becomes of the transfer if and only if a service that the URL names is
named within the first 2047 characters. -/
theorem served_begun (installed : Option Destination) (method : Short 15) (url : Str) :
    (served installed method url = true ↔
        ((requested method url).begin installed true).2.here = true ∨
          ((requested method url).redirection installed).isSome = true) ↔
      NamedEarly installed method url := by
  have whole : (requested method url).method = method := List.take_of_length_le method.2
  have kept : (requested method url).url = url.take (urlLimit - 1) := rfl
  rw [begun_iff, whole, kept, served_iff, served_iff]
  exact ⟨Iff.mp, fun early => ⟨early, fun h => h.mono (List.take_prefix _ _).isInfix⟩⟩

/-- A URL of the privacy service whose path runs past what a transfer keeps. -/
def farUrl : Str :=
  "https://privacy.xboxlive.com/".toList ++ List.replicate 2020 'x' ++
    "/permission/validate".toList

/-- The entry point promises a token for it, and the transfer goes to the network. -/
theorem served_begun_far :
    ¬ ∀ (installed : Option Destination) (method : Short 15) (url : Str),
      served installed method url = true ↔
        ((requested method url).begin installed true).2.here = true ∨
          ((requested method url).redirection installed).isSome = true := by
  intro claim
  have same := claim none ⟨"GET".toList, by decide⟩ farUrl
  rw [begun_iff, served, served, Bool.or_eq_true, Bool.or_eq_true] at same
  have early : farUrl.take (urlLimit - 1) =
      "https://privacy.xboxlive.com/".toList ++ List.replicate 2018 'x' := by
    decide +kernel
  have whole : answered "GET".toList farUrl = true :=
    (answered_iff _ _).mpr ⟨rfl,
      ⟨"https://".toList, '/' :: (List.replicate 2020 'x' ++ "/permission/validate".toList),
        by decide +kernel⟩, (List.suffix_append _ _).isInfix⟩
  rcases same.mp (.inl whole) with h | h
  · obtain ⟨-, -, path⟩ := (answered_iff _ _).mp h
    have mem : 'n' ∈ farUrl.take (urlLimit - 1) := path.subset (by decide)
    rw [early, List.mem_append, List.mem_replicate] at mem
    revert mem
    decide
  · obtain ⟨inst, -⟩ := (platform_isSome_iff _ _).mp h
    cases inst

end IW4x.XCurl
