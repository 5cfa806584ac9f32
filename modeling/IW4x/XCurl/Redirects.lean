import Mathlib.Data.List.TakeWhile
import IW4x.XCurl.Transfer

/-!
# What libcurl is asked for

A transfer keeps two copies of its URL: the whole in libcurl, and what it has room for in the slot.
The redirected URL is made from the second, and has room for no more characters than it.
-/

namespace IW4x.XCurl

/-! ## The parts of a URL -/

/-- The characters that end an authority. -/
def delimits (c : Char) : Bool := c = '/' || c = '?' || c = '#'

/-- What follows the `://` of a scheme, where the URL starts with a scheme. -/
def afterScheme (url : Str) : Option Str :=
  let name := url.takeWhile fun c => !(c = ':' || delimits c)
  let rest := url.dropWhile fun c => !(c = ':' || delimits c)
  if name ≠ [] ∧ "://".toList <+: rest then some (rest.drop 3) else none

/-- The path, the query and the fragment of a URL: what follows its authority. -/
def resource (url : Str) : Str := ((afterScheme url).getD url).dropWhile (!delimits ·)

/-- The first `://` of a URL, if there is one, is that of its scheme. -/
def SchemeFirst (url : Str) : Prop :=
  (afterScheme url).isSome = true ∨ ¬ "://".toList <:+: url

/-- What the redirected URL starts with. -/
def origin (d : Destination) : Str := "http://".toList ++ d.host ++ ":".toList ++ decimal d.port

/-- `serve_platform_at`: what is installed of the place that it is given. -/
def servePlatformAt (d : Destination) : Destination := { d with host := text hostLimit d.host }

/-- What `redirect` takes over of the URL that it is given. -/
def carried (url : Str) : Str := ((afterFirst "://".toList url).getD url).dropWhile (!delimits ·)

theorem redirect_eq (url : Str) (d : Destination) :
    redirect url d = text urlLimit (origin d ++ carried url) := rfl

/-- What follows a scheme. -/
theorem afterScheme_eq_some {url after : Str} : afterScheme url = some after ↔
    ∃ name, name ≠ [] ∧ (∀ c ∈ name, c ≠ ':' ∧ delimits c = false) ∧
      url = name ++ ':' :: '/' :: '/' :: after := by
  unfold afterScheme
  constructor
  · intro h
    simp only at h
    split_ifs at h with hscheme
    obtain ⟨hname, more, hmore⟩ := hscheme
    refine ⟨_, hname, fun c hc => by simpa using List.mem_takeWhile_imp hc, ?_⟩
    rw [← hmore] at h
    have hsplit := (List.takeWhile_append_dropWhile (p := fun c => !(c = ':' || delimits c))
      (l := url)).symm
    rw [← hmore] at hsplit
    rw [← Option.some.inj h]
    exact hsplit
  · rintro ⟨name, hname, hall, rfl⟩
    have hp : ∀ c ∈ name, (!(decide (c = ':') || delimits c)) = true := fun c hc => by
      simpa using hall c hc
    rw [List.takeWhile_append_of_pos hp, List.dropWhile_append_of_pos hp]
    have hmark : "://".toList = [':', '/', '/'] := rfl
    simp [hmark, hname]

theorem afterFirst_eq_none {needle url : Str} : afterFirst needle url = none ↔ ¬ needle <:+: url := by
  induction url with
  | nil => simp [afterFirst]
  | cons c url ih =>
    rw [afterFirst, List.infix_cons_iff, not_or]
    split_ifs with h
    · simp [h]
    · simp [h, ih]

theorem afterFirst_eq_some {needle url after : Str} (h : afterFirst needle url = some after) :
    ∃ before, url = before ++ needle ++ after := by
  induction url with
  | nil =>
    simp only [afterFirst, Option.ite_none_right_eq_some, Option.some.injEq] at h
    exact ⟨[], by simp [h.1, ← h.2]⟩
  | cons c url ih =>
    rw [afterFirst] at h
    split_ifs at h with hprefix
    · obtain ⟨more, hmore⟩ := hprefix
      rw [← hmore, List.drop_left, Option.some.injEq] at h
      exact ⟨[], by simp [← hmore, h]⟩
    · obtain ⟨before, rfl⟩ := ih h
      exact ⟨c :: before, rfl⟩

theorem afterFirst_name {name : Str} (after : Str) (h : ∀ c ∈ name, delimits c = false) :
    afterFirst "://".toList (name ++ ':' :: '/' :: '/' :: after) = some after := by
  induction name with
  | nil => simp [afterFirst]
  | cons c name ih =>
    -- what follows `c` is another character of the name or the colon, and no slash
    have hc : ¬ "://".toList <+: c :: (name ++ ':' :: '/' :: '/' :: after) := by
      rintro ⟨more, hmore⟩
      have hsecond := (List.cons.inj hmore).2
      cases name with
      | nil => exact absurd (List.cons.inj hsecond).1 (by decide)
      | cons c' name =>
        have hslash := h c' (by simp)
        rw [← (List.cons.inj hsecond).1] at hslash
        exact absurd hslash (by decide)
    rw [List.cons_append, afterFirst, if_neg hc]
    exact ih fun c' hc' => h c' (List.mem_cons_of_mem _ hc')

/-! ## What is carried over -/

theorem carried_of_schemeFirst {url : Str} (h : SchemeFirst url) : carried url = resource url := by
  unfold carried resource
  rcases h with h | h
  · obtain ⟨after, hafter⟩ := Option.isSome_iff_exists.mp h
    obtain ⟨name, -, hall, rfl⟩ := afterScheme_eq_some.mp hafter
    rw [hafter, afterFirst_name after fun c hc => (hall c hc).2]
  · rw [afterFirst_eq_none.mpr h]
    cases hscheme : afterScheme url with
    | none => rfl
    | some after =>
      obtain ⟨name, -, -, rfl⟩ := afterScheme_eq_some.mp hscheme
      exact absurd ⟨name, after, by simp⟩ h

theorem length_dropWhile_le (p : Char → Bool) (l : Str) : (l.dropWhile p).length ≤ l.length :=
  (List.dropWhile_suffix p).length_le

theorem length_lt_dropWhile {c : Char} (hc : delimits c = true) (l r : Str) :
    r.length < ((l ++ c :: r).dropWhile (!delimits ·)).length := by
  rw [List.dropWhile_append]
  split_ifs
  · simp [hc]
  · simp only [List.length_append, List.length_cons]
    omega

theorem carried_lt {url : Str} (h : ¬ SchemeFirst url) :
    (carried url).length < (resource url).length := by
  simp only [SchemeFirst, not_or, not_not, Option.not_isSome_iff_eq_none] at h
  obtain ⟨hscheme, hmark⟩ := h
  unfold carried resource
  rw [hscheme]
  cases hafter : afterFirst "://".toList url with
  | none => exact absurd hmark (afterFirst_eq_none.mp hafter)
  | some after =>
    obtain ⟨before, hurl⟩ := afterFirst_eq_some hafter
    have hsplit : url = (before ++ [':']) ++ '/' :: '/' :: after := by
      rw [hurl]
      simp
    have hle := length_dropWhile_le (!delimits ·) after
    have hlt := length_lt_dropWhile (c := '/') rfl (before ++ [':']) ('/' :: after)
    rw [← hsplit] at hlt
    simp only [Option.getD_some, Option.getD_none, List.length_cons] at hle hlt ⊢
    omega

theorem afterScheme_append {part after : Str} (h : afterScheme part = some after) (more : Str) :
    afterScheme (part ++ more) = some (after ++ more) := by
  obtain ⟨name, hname, hall, rfl⟩ := afterScheme_eq_some.mp h
  exact afterScheme_eq_some.mpr ⟨name, hname, hall, by simp⟩

theorem length_dropWhile_append (p : Char → Bool) (l r : Str) :
    (l.dropWhile p).length ≤ ((l ++ r).dropWhile p).length := by
  rw [List.dropWhile_append]
  split_ifs with h
  · simp [List.isEmpty_iff.mp h]
  · simp

/-- The part of a URL that is kept has no more after its authority, unless its scheme is cut. -/
theorem resource_take_le (url : Str) (n : ℕ) :
    (resource (url.take n)).length ≤ (resource url).length ∨
      (resource (url.take n)).length ≤ 1 ∧ ¬ "://".toList <:+: url.take n := by
  have hsplit := List.take_append_drop n url
  cases hpart : afterScheme (url.take n) with
  | some after =>
    left
    have hwhole := afterScheme_append hpart (url.drop n)
    rw [hsplit] at hwhole
    rw [resource, resource, hpart, hwhole]
    exact length_dropWhile_append _ _ _
  | none =>
    cases hwhole : afterScheme url with
    | none =>
      left
      have hle := length_dropWhile_append (!delimits ·) (url.take n) (url.drop n)
      rw [hsplit] at hle
      rwa [resource, resource, hpart, hwhole]
    | some after =>
      right
      obtain ⟨name, hname, hall, rfl⟩ := afterScheme_eq_some.mp hwhole
      have hlt : n < name.length + 3 := by
        by_contra hge
        have hpart' : afterScheme ((name ++ ':' :: '/' :: '/' :: after).take n) =
            some (after.take (n - (name.length + 3))) := by
          refine afterScheme_eq_some.mpr ⟨name, hname, hall, ?_⟩
          obtain ⟨k, rfl⟩ := Nat.exists_eq_add_of_le (not_lt.mp hge)
          rw [show name.length + 3 + k = name.length + (k + 3) by omega, List.take_length_add_append,
            show name.length + (k + 3) - (name.length + 3) = k by omega]
          rfl
        rw [hpart] at hpart'
        cases hpart'
      -- what is kept is within the name and the first two characters of the mark
      have hwithin : (name ++ ':' :: '/' :: '/' :: after).take n <+: name ++ [':', '/'] := by
        rw [show name ++ ':' :: '/' :: '/' :: after = (name ++ [':', '/']) ++ '/' :: after by simp,
          List.take_append_of_le_length (by simp; omega)]
        exact List.take_prefix _ _
      constructor
      · obtain ⟨more, hmore⟩ := hwithin
        have hle := length_dropWhile_append (!delimits ·)
          ((name ++ ':' :: '/' :: '/' :: after).take n) more
        rw [hmore, List.dropWhile_append_of_pos fun c hc => by simp [(hall c hc).2]] at hle
        rw [resource, hpart]
        exact hle
      · intro hmark
        have hcount := (hmark.sublist.trans hwithin.sublist).count_le '/'
        have hname' : name.count '/' = 0 := List.count_eq_zero.mpr fun hmem => by
          have := (hall _ hmem).2
          cases this
        rw [List.count_append, hname'] at hcount
        exact absurd hcount (by decide)

/-- What is taken from the part of a URL that is kept is all that follows the authority of the URL if
and only if nothing of it is cut off, and no other `://` comes first. -/
theorem carried_take_iff (url : Str) (n : ℕ) : carried (url.take n) = resource url ↔
    SchemeFirst (url.take n) ∧ resource (url.take n) = resource url := by
  by_cases hfirst : SchemeFirst (url.take n)
  · rw [carried_of_schemeFirst hfirst]
    simp [hfirst]
  · have hlt := carried_lt hfirst
    have hmark : "://".toList <:+: url.take n := by
      by_contra hnone
      exact hfirst (.inr hnone)
    refine iff_of_false (fun heq => ?_) fun h => hfirst h.1
    rcases resource_take_le url n with hle | ⟨-, hnone⟩
    · rw [heq] at hlt
      omega
    · exact hnone hmark

theorem carried_take_le (url : Str) (n : ℕ) :
    (carried (url.take n)).length ≤ (resource url).length ∨ (carried (url.take n)).length ≤ 1 := by
  have hle : (carried (url.take n)).length ≤ (resource (url.take n)).length := by
    by_cases hfirst : SchemeFirst (url.take n)
    · rw [carried_of_schemeFirst hfirst]
    · exact (carried_lt hfirst).le
  rcases resource_take_le url n with h | ⟨h, -⟩ <;> omega

/-! ## What begin sets -/

theorem length_decimal_port (d : Destination) : (decimal d.port).length ≤ 5 := by
  have hport : d.port < 10 ^ 5 := lt_of_le_of_lt d.inRange.2 (by norm_num)
  have hrepr : d.port.repr.length ≤ 5 := (Nat.length_repr_le_iff (by norm_num)).mpr hport
  rw [decimal, String.length_toList]
  exact hrepr

theorem length_origin_append (host port : Str) :
    ("http://".toList ++ host ++ ":".toList ++ port).length = 8 + host.length + port.length := by
  simp
  omega

theorem length_origin (d : Destination) : (origin (servePlatformAt d)).length < 1000 := by
  have hhost : (text hostLimit d.host).length ≤ hostLimit - 1 := List.length_take_le _ _
  have hlimit : hostLimit - 1 = 255 := rfl
  have hport := length_decimal_port d
  have horigin : origin (servePlatformAt d) =
    "http://".toList ++ text hostLimit d.host ++ ":".toList ++ decimal d.port := rfl
  rw [horigin, length_origin_append]
  omega

theorem redirect_take_iff (url : Str) (d : Destination) :
    redirect (url.take (urlLimit - 1)) (servePlatformAt d) =
        origin (servePlatformAt d) ++ resource url ↔
      (origin (servePlatformAt d) ++ resource url).length ≤ urlLimit - 1 ∧
        carried (url.take (urlLimit - 1)) = resource url := by
  have hshort := length_origin d
  have hlimit : urlLimit - 1 = 2047 := rfl
  rw [redirect_eq, text]
  constructor
  · intro heq
    have hlength := congrArg List.length heq
    simp only [List.length_take, List.length_append] at hlength ⊢
    refine ⟨by omega, ?_⟩
    rw [List.take_of_length_le] at heq
    · exact List.append_cancel_left heq
    · rw [List.length_append]
      rcases carried_take_le url (urlLimit - 1) with h | h <;> omega
  · rintro ⟨hfits, heq⟩
    rw [heq, List.take_of_length_le hfits]

/-- What libcurl is asked for is whole: `begin` fails, or it leaves libcurl with the URL that it was
given, or it sets the whole redirected one. -/
def AsksWhole (installed : Option Destination) (accepts : Bool) (t : Transfer) (url : Str) : Prop :=
  (t.begin installed accepts).1 = false ∨ t.redirection installed = none ∨
    ∃ d, installed = some d ∧ t.redirection installed = some (origin d ++ resource url)

/-- A URL of any length that `setopt` takes asks libcurl for a whole one if and only if, where the
platform is to answer, nothing is cut off what follows its authority, no other `://` comes before
that of its scheme, and the redirected URL fits. A URL that `setopt` refuses is not set. -/
theorem asksWhole_iff (place : Option Destination) (accepts : Bool) (t : Transfer) (url : Str) :
    AsksWhole (place.map servePlatformAt) accepts (t.set (.url (some url))) url ↔
      ∀ d, accepts = true → answered t.method (url.take (urlLimit - 1)) = false →
        platform (place.map servePlatformAt) (url.take (urlLimit - 1)) = some d →
        SchemeFirst (url.take (urlLimit - 1)) ∧
          resource (url.take (urlLimit - 1)) = resource url ∧
          (origin d ++ resource url).length ≤ urlLimit - 1 := by
  have hurl : (t.set (.url (some url))).url = url.take (urlLimit - 1) := rfl
  have hmethod : (t.set (.url (some url))).method = t.method := rfl
  cases hanswered : answered t.method (url.take (urlLimit - 1)) with
  | true =>
    have hnone : (t.set (.url (some url))).redirection (place.map servePlatformAt) = none := by
      obtain ⟨r, hr⟩ := Option.isSome_iff_exists.mp ((answer_isSome _ _).trans hanswered)
      rw [Transfer.redirection, hurl, hmethod, hr]
    exact iff_of_true (.inr (.inl hnone)) (by simp)
  | false =>
    have hanswer : answer t.method (url.take (urlLimit - 1)) = none := by
      rw [← Option.not_isSome_iff_eq_none, answer_isSome, hanswered]
      exact Bool.false_ne_true
    have hredirection : (t.set (.url (some url))).redirection (place.map servePlatformAt) =
        (platform (place.map servePlatformAt) (url.take (urlLimit - 1))).map
          fun d => redirect (url.take (urlLimit - 1)) d := by
      rw [Transfer.redirection, hurl, hmethod, hanswer]
    have hbegin := ((t.set (.url (some url))).begin_redirection (place.map servePlatformAt) accepts
      (by rw [answer_isSome, hurl, hmethod, hanswered])).1
    rw [AsksWhole, hbegin, hredirection]
    cases hplatform : platform (place.map servePlatformAt) (url.take (urlLimit - 1)) with
    | none => simp
    | some d =>
      obtain ⟨d, rfl, rfl⟩ : ∃ d', place = some d' ∧ d = servePlatformAt d' := by
        unfold platform at hplatform
        split_ifs at hplatform
        obtain ⟨d', hd', rfl⟩ := Option.map_eq_some_iff.mp hplatform
        exact ⟨d', hd', rfl⟩
      cases accepts with
      | false => simp
      | true =>
        simp only [Option.map_some, Option.all_some, Bool.true_eq_false, reduceCtorEq, false_or,
          Option.some.injEq, exists_eq_left', forall_const, forall_eq']
        rw [redirect_take_iff, carried_take_iff]
        exact ⟨fun h => ⟨h.2.1, h.2.2, h.1⟩, fun h => ⟨h.2.2, h.1, h.2.1⟩⟩

/-- A URL that just fits, and a platform whose name is longer than that of the service. -/
def fullUrl : Str := "https://social.xboxlive.com/people/".toList ++ List.replicate 2012 'x'

def longHost : Destination where
  host := List.replicate 30 'h'
  port := 8080
  inRange := by decide

theorem fullUrl_take : fullUrl.take (urlLimit - 1) = fullUrl := by
  have hlength : ∀ n, ("https://social.xboxlive.com/people/".toList ++
      List.replicate n 'x').length = n + 35 := by
    intro n
    simp
  exact List.take_of_length_le (hlength 2012).le

theorem people_redirected (t : Str) :
    redirected ("https://social.xboxlive.com/people/".toList ++ t) = true := by
  have hservice :
      "social.xboxlive.com".toList <:+: "https://social.xboxlive.com/people/".toList ++ t :=
    ⟨"https://".toList, "/people/".toList ++ t, rfl⟩
  have hpeople : "/people".toList <:+: "https://social.xboxlive.com/people/".toList ++ t :=
    ⟨"https://social.xboxlive.com".toList, '/' :: t, rfl⟩
  simp only [redirected, containsStr, hservice, hpeople, decide_true, Bool.and_self, Bool.true_or]

theorem people_resource (t : Str) :
    resource ("https://social.xboxlive.com/people/".toList ++ t) = "/people/".toList ++ t := by
  have hscheme : afterScheme ("https://social.xboxlive.com/people/".toList ++ t) =
      some ("social.xboxlive.com/people/".toList ++ t) :=
    afterScheme_eq_some.mpr ⟨"https".toList, by decide, by simp [delimits], rfl⟩
  rw [resource, hscheme]
  rfl

theorem fullUrl_platform :
    platform (some (servePlatformAt longHost)) fullUrl = some (servePlatformAt longHost) := by
  have hredirected : redirected fullUrl = true := people_redirected (List.replicate 2012 'x')
  rw [platform, hredirected, if_pos rfl]

theorem longHost_length : (origin (servePlatformAt longHost)).length = 42 := by
  have hhost : (text hostLimit longHost.host).length = 30 := by
    rw [text, List.length_take, longHost, List.length_replicate]
    decide
  have hport : (decimal longHost.port).length = 4 := by decide
  have horigin : origin (servePlatformAt longHost) =
    "http://".toList ++ text hostLimit longHost.host ++ ":".toList ++ decimal longHost.port := rfl
  rw [horigin, length_origin_append, hhost, hport]

theorem fullUrl_resource : resource fullUrl = "/people/".toList ++ List.replicate 2012 'x' :=
  people_resource (List.replicate 2012 'x')

/-- A request that is not for this client to answer is cut, though its URL fits. -/
theorem asksWhole_fails :
    ¬ ∀ (place : Option Destination) (accepts : Bool) (t : Transfer) (url : Str),
      AsksWhole (place.map servePlatformAt) accepts (t.set (.url (some url))) url := by
  intro claim
  have hset : ((Transfer.opened.set (.post 1)).set (.url (some fullUrl))).redirection
      (some (servePlatformAt longHost)) = some (redirect fullUrl (servePlatformAt longHost)) := by
    have hurl : ((Transfer.opened.set (.post 1)).set (.url (some fullUrl))).url = fullUrl :=
      fullUrl_take
    rw [Transfer.redirection, hurl, fullUrl_platform]
    rfl
  rcases claim (some longHost) true (Transfer.opened.set (.post 1)) fullUrl with h | h | ⟨d, hd, h⟩
  · have hbegin := (((Transfer.opened.set (.post 1)).set (.url (some fullUrl))).begin_redirection
      (some (servePlatformAt longHost)) true rfl).1
    rw [hset] at hbegin
    rw [Option.map_some, hbegin] at h
    cases h
  · rw [Option.map_some, hset] at h
    cases h
  · rw [Option.map_some, hset, fullUrl_resource] at h
    obtain rfl := Option.some.inj hd
    have hlength := congrArg List.length (Option.some.inj h)
    have hshort : (redirect fullUrl (servePlatformAt longHost)).length ≤ urlLimit - 1 :=
      List.length_take_le _ _
    have hrest : ∀ n, ("/people/".toList ++ List.replicate n 'x').length = n + 8 := by
      intro n
      simp
    have hlimit : urlLimit - 1 = 2047 := rfl
    rw [hlength, hlimit, List.length_append, longHost_length, hrest] at hshort
    omega

end IW4x.XCurl
