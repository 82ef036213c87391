import Estoc.EventStore.Agreement
import Estoc.FromPrior.Proof
import Estoc.Lib.Base64

/-!
# The precheck is never stricter than the proof

A token is held to the profile twice: on the claims decoded before there is a document, and
on the claims read again from the bytes that were verified. Both are the payload segment,
decoded: `b64` cannot be `false` once the header's extensions were checked, and what a fatal
decoder took for UTF-8 is the same text to the lenient one. So a token that verifies passed
the precheck with the same claims, and a proof that binds passed it with the receipt's
sender; a token the precheck refuses has no proof to wait for.
-/

set_option linter.unusedSectionVars false

namespace Estoc.FromPrior

open Json (lit lit_ofList member)
open Utf16 (JsString encodeUtf8)
open Checked (refuse bind_eq_ok refuse_bind_eq_ok)
open DidPeer (Members isShortForm isLongForm longToShort)

/-- What the JWT library is held to, where a token is three segments and the codec of the
profile decodes its payload. -/
structure Packages.Follows (P : Packages) : Prop where
  /-- The claims of a JWT are its payload as UTF-8, and a JSON object. -/
  decodeJwt : ∀ {jwt header payload signature : JsString} {bytes : List UInt8} {claims : Members},
    jwt.splitOn Json.dot = [header, payload, signature] →
    P.base64urlnopadDecode payload = some bytes → P.decodeJwt jwt = .ok claims →
    ∃ text, TextDecoder.decodeFatal bytes = some text ∧
      Json.parse P.numbers text = some (.object claims)
  /-- The payload of a JWS is base64url-encoded unless the protected header's `b64` is `false`. -/
  compactVerify : ∀ {jwt header payload signature : JsString} {bytes verified : List UInt8}
      {members key : Members},
    jwt.splitOn Json.dot = [header, payload, signature] →
    P.base64urlnopadDecode payload = some bytes → P.decodeProtectedHeader jwt = .ok members →
    member members (lit "b64") ≠ some (.scalar (.boolean false)) →
    P.compactVerify jwt key = .ok verified → verified = bytes

theorem caught_eq_ok {α : Type} {become : JsString → InvalidFromPrior} {x : Except JsString α} {a : α} :
    caught become x = .ok a ↔ x = .ok a := by
  cases x with
  | ok b => rw [caught, Except.ok.injEq, Except.ok.injEq]
  | error message =>
      constructor
      · intro h; cases h
      · intro h; cases h

section
variable {P : Packages}

/-! ## Spellings -/

/-- A spelling's identity, whatever it is asked about for. -/
def Names (P : Packages) (spelling did : Did) : Prop :=
  isShortForm did = true ∧ ∀ what, canonicalDid P spelling what = .ok ⟨spelling, did⟩

theorem names_of_canonicalDid {spelling what : JsString} {d : DidSpelling}
    (h : canonicalDid P spelling what = .ok d) : d.presented = spelling ∧ Names P spelling d.canonical := by
  rw [canonicalDid] at h
  by_cases hshort : isShortForm spelling = true
  · rw [if_pos hshort] at h
    cases h
    exact ⟨rfl, hshort, fun what => by rw [canonicalDid, if_pos hshort]; rfl⟩
  · rw [if_neg hshort] at h
    obtain ⟨hlong, h⟩ := refuse_bind_eq_ok.mp h
    obtain ⟨document, hdecoded, h⟩ := bind_eq_ok.mp h
    obtain ⟨short, hcut, h⟩ := bind_eq_ok.mp h
    cases h
    have hcut := caught_eq_ok.mp hcut
    refine ⟨rfl, DidPeer.isShortForm_of_longToShort hcut, fun what => ?_⟩
    rw [canonicalDid, if_neg hshort]
    refine refuse_bind_eq_ok.mpr ⟨hlong, bind_eq_ok.mpr ⟨document, ?_, ?_⟩⟩
    · exact caught_eq_ok.mpr (caught_eq_ok.mp hdecoded)
    · exact bind_eq_ok.mpr ⟨short, caught_eq_ok.mpr hcut, rfl⟩

/-! ## The two readings of the claims -/

/-- What a token that decoded is: three segments, the payload among them. -/
theorem decode_eq_ok {jwt : JsString} {decoded : Decoded} (h : decode P jwt = .ok decoded) :
    ∃ header payload signature bytes claims, jwt.splitOn Json.dot = [header, payload, signature] ∧
      P.base64urlnopadDecode payload = some bytes ∧
      P.decodeProtectedHeader jwt = .ok decoded.members ∧
      checkHeaderExtensions decoded.members = .ok () ∧
      P.decodeJwt jwt = .ok claims ∧ claimsOf claims = .ok decoded.claims := by
  rw [decode] at h
  obtain ⟨⟨⟩, hsegments, h⟩ := bind_eq_ok.mp h
  obtain ⟨members, hheader, h⟩ := bind_eq_ok.mp h
  obtain ⟨claims, hclaims, h⟩ := bind_eq_ok.mp h
  obtain ⟨header, payload, signature, bytes, hsplit, hbytes⟩ :
      ∃ header payload signature bytes, jwt.splitOn Json.dot = [header, payload, signature] ∧
        P.base64urlnopadDecode payload = some bytes := by
    rw [checkSegments] at hsegments
    split at hsegments
    · next header payload signature hsplit =>
        obtain ⟨_, -, hsegments⟩ := bind_eq_ok.mp hsegments
        obtain ⟨bytes, hbytes, -⟩ := bind_eq_ok.mp hsegments
        rw [segmentBytes] at hbytes
        split at hbytes
        · next found => exact ⟨header, payload, signature, _, hsplit, found⟩
        · cases hbytes
    · cases hsegments
  split at h
  · cases h
  · cases h
  · next alg kid halg hkid =>
      obtain ⟨-, h⟩ := refuse_bind_eq_ok.mp h
      obtain ⟨⟨⟩, hextensions, h⟩ := bind_eq_ok.mp h
      obtain ⟨read, hread, h⟩ := bind_eq_ok.mp h
      cases h
      exact ⟨header, payload, signature, bytes, claims, hsplit, hbytes, caught_eq_ok.mp hheader,
        hextensions, caught_eq_ok.mp hclaims, hread⟩

/-- A header whose extensions were checked says nothing against the payload's encoding. -/
theorem b64_of_checkHeaderExtensions {header : Members} (h : checkHeaderExtensions header = .ok ()) :
    member header (lit "b64") ≠ some (.scalar (.boolean false)) := by
  intro hfalse
  rw [checkHeaderExtensions] at h
  simp only [hfalse] at h
  split at h
  · obtain ⟨-, h⟩ := refuse_bind_eq_ok.mp h
    obtain ⟨-, h⟩ := refuse_bind_eq_ok.mp h
    cases h
  · cases h

/-- The claims read from what was verified are the claims that were decoded. -/
theorem verifiedClaims_of_compactVerify (follows : P.Follows) {jwt : JsString} {decoded : Decoded}
    {key : Members} {payload : List UInt8} (hdecoded : decode P jwt = .ok decoded)
    (hverified : P.compactVerify jwt key = .ok payload) :
    verifiedClaims P payload = .ok decoded.claims := by
  obtain ⟨_, _, _, bytes, claims, hsplit, hbytes, hheader, hextensions, hclaims, hread⟩ :=
    decode_eq_ok hdecoded
  obtain ⟨text, htext, hparsed⟩ := follows.decodeJwt hsplit hbytes hclaims
  have hpayload : payload = bytes := follows.compactVerify hsplit hbytes hheader
    (b64_of_checkHeaderExtensions hextensions) hverified
  rw [verifiedClaims, hpayload, TextDecoder.decode_of_decodeFatal htext, hparsed]
  exact hread

/-! ## What a proof carries -/

/-- The claims that spell a change. -/
def TokenClaims.Spell (claims : TokenClaims) : VerifiedChange → Prop
  | .rotate successor => claims.sub = some successor.presented ∧ claims.aud = none
  | .ending audience => claims.sub = none ∧ claims.aud = audience.map DidSpelling.presented

/-- A change to another DID than the issuer, or that ends what it had with another. -/
def Elsewhere (P : Packages) (issuer : DidSpelling) : VerifiedChange → Prop
  | .rotate successor => Names P successor.presented successor.canonical ∧
      successor.canonical ≠ issuer.canonical
  | .ending audience => ∀ a ∈ audience, Names P a.presented a.canonical ∧
      a.canonical ≠ issuer.canonical

/-- The claims behind a proof. -/
structure Carries (claims : TokenClaims) (proof : VerifiedFromPrior) : Prop where
  iss : claims.iss = proof.issuer.presented
  iat : claims.iat = proof.iat
  change : claims.Spell proof.change

theorem profileChange_eq_ok {claims : TokenClaims} {issuer : DidSpelling} {change : VerifiedChange}
    (h : profileChange P claims issuer = .ok change) :
    claims.Spell change ∧ Elsewhere P issuer change := by
  rw [profileChange] at h
  split at h
  · next sub hsub =>
      obtain ⟨successor, hsuccessor, h⟩ := bind_eq_ok.mp h
      obtain ⟨hother, h⟩ := refuse_bind_eq_ok.mp h
      obtain ⟨haud, h⟩ := refuse_bind_eq_ok.mp h
      cases h
      obtain ⟨hpresented, hnames⟩ := names_of_canonicalDid hsuccessor
      exact ⟨⟨hpresented ▸ hsub, by simpa using haud⟩, hpresented ▸ hnames, hother⟩
  · next hsub =>
      split at h
      · next haud =>
          cases h
          exact ⟨⟨hsub, haud⟩, fun a ha => by cases ha⟩
      · next aud haud =>
          obtain ⟨audience, haudience, h⟩ := bind_eq_ok.mp h
          obtain ⟨hother, h⟩ := refuse_bind_eq_ok.mp h
          cases h
          obtain ⟨hpresented, hnames⟩ := names_of_canonicalDid haudience
          refine ⟨⟨hsub, haud.trans (congrArg some hpresented.symm)⟩, fun a ha => ?_⟩
          cases ha
          exact ⟨hpresented ▸ hnames, hother⟩

/-- The profile read an issuer and a change from the claims. -/
theorem checkProfile_eq_ok {decoded : Decoded} {issuer : DidSpelling} {change : VerifiedChange}
    (h : checkProfile P decoded = .ok (issuer, change)) :
    (∀ what, canonicalDid P decoded.claims.iss what = .ok issuer) ∧
      profileChange P decoded.claims issuer = .ok change := by
  rw [checkProfile] at h
  obtain ⟨-, h⟩ := refuse_bind_eq_ok.mp h
  obtain ⟨-, h⟩ := refuse_bind_eq_ok.mp h
  split at h
  · cases h
  · obtain ⟨issuer, hissuer, h⟩ := bind_eq_ok.mp h
    obtain ⟨kid, -, h⟩ := bind_eq_ok.mp h
    obtain ⟨-, h⟩ := refuse_bind_eq_ok.mp h
    obtain ⟨change, hchange, h⟩ := bind_eq_ok.mp h
    cases h
    obtain ⟨hpresented, hnames⟩ := names_of_canonicalDid hissuer
    have hspelling : issuer = ⟨decoded.claims.iss, issuer.canonical⟩ := by rw [← hpresented]
    exact ⟨fun what => hspelling ▸ hnames.2 what, hchange⟩

/-! ## Verified -/

/-- A token that verified passed the profile, and its long form is the issuer's. -/
theorem verifyFromPrior_eq_ok (follows : P.Follows) {token : JsString} {longForm : Did}
    {proof : VerifiedFromPrior} (h : verifyFromPrior P token longForm = .ok proof) :
    ∃ decoded, decode P token = .ok decoded ∧
      checkProfile P decoded = .ok (proof.issuer, proof.change) ∧
      longToShort longForm = .ok proof.issuer.canonical ∧
      proof.token = token ∧ proof.iat = decoded.claims.iat := by
  rw [verifyFromPrior] at h
  obtain ⟨decoded, hdecoded, h⟩ := bind_eq_ok.mp h
  obtain ⟨⟨issuer, change⟩, hchecked, h⟩ := bind_eq_ok.mp h
  obtain ⟨document, hdocument, h⟩ := bind_eq_ok.mp h
  obtain ⟨method, -, h⟩ := bind_eq_ok.mp h
  obtain ⟨hissuer, hchange⟩ := checkProfile_eq_ok hchecked
  have hshort : longToShort longForm = .ok issuer.canonical := by
    obtain ⟨-, hdocument⟩ := refuse_bind_eq_ok.mp hdocument
    obtain ⟨_, -, hdocument⟩ := bind_eq_ok.mp hdocument
    obtain ⟨short, hcut, hdocument⟩ := bind_eq_ok.mp hdocument
    obtain ⟨hsame, -⟩ := refuse_bind_eq_ok.mp hdocument
    rw [caught_eq_ok.mp hcut, not_not.mp hsame]
  split at h
  · cases h
  · cases h
  · next payload hverified =>
      rw [verifiedClaims_of_compactVerify follows hdecoded hverified, Checked.ok_bind, hissuer,
        Checked.ok_bind, hchange, Checked.ok_bind] at h
      cases h
      exact ⟨decoded, hdecoded, hchecked, hshort, rfl, rfl⟩

theorem carries_of_checkProfile {decoded : Decoded} {proof : VerifiedFromPrior}
    (h : checkProfile P decoded = .ok (proof.issuer, proof.change))
    (hiat : proof.iat = decoded.claims.iat) : Carries decoded.claims proof := by
  obtain ⟨hissuer, hchange⟩ := checkProfile_eq_ok h
  exact ⟨(names_of_canonicalDid (hissuer [])).1.symm, hiat.symm, (profileChange_eq_ok hchange).1⟩

theorem precheckFromPrior_none {token : JsString} {decoded : Decoded}
    {checked : DidSpelling × VerifiedChange} (hdecoded : decode P token = .ok decoded)
    (hchecked : checkProfile P decoded = .ok checked) :
    precheckFromPrior P token none = .ok (unverifiedOf decoded) := by
  rw [precheckFromPrior, hdecoded, Checked.ok_bind, hchecked]
  rfl

/-- A rotation passes with a sender that is its successor. -/
theorem precheckFromPrior_successor {token : JsString} {decoded : Decoded} {sender : Did}
    {issuer successor : DidSpelling} (hdecoded : decode P token = .ok decoded)
    (hchecked : checkProfile P decoded = .ok (issuer, .rotate successor))
    (hsender : Names P sender successor.canonical) :
    precheckFromPrior P token (some sender) = .ok (unverifiedOf decoded) := by
  rw [precheckFromPrior, hdecoded, Checked.ok_bind, hchecked, Checked.ok_bind]
  simp only [hsender.2]
  exact refuse_bind_eq_ok.mpr ⟨not_not.mpr rfl, rfl⟩

/-! ## Bound -/

theorem receiptSender_eq_some {presented : Option Did} {sender : DidSpelling}
    (h : receiptSender P presented = .ok (some sender)) :
    ∃ did, presented = some did ∧ Names P did sender.canonical := by
  cases presented with
  | none => cases h
  | some did =>
      obtain ⟨spelling, hspelling, h⟩ := bind_eq_ok.mp h
      cases h
      exact ⟨did, rfl, (names_of_canonicalDid hspelling).2⟩

theorem receiptSender_eq_none {presented : Option Did} (h : receiptSender P presented = .ok none) :
    presented = none := by
  cases presented with
  | none => rfl
  | some did =>
      obtain ⟨_, _, h⟩ := bind_eq_ok.mp h
      cases h

/-- What a change becomes on a receipt it binds to. -/
def Binds (P : Packages) (sender : Option Did) (recipient issuer : Did) :
    VerifiedChange → BoundChange → Prop
  | .rotate successor, bound => bound = .rotate recipient issuer successor.canonical ∧
      recipient ≠ successor.canonical ∧ ∃ did, sender = some did ∧ Names P did successor.canonical
  | .ending audience, bound => bound = .ending recipient issuer ∧
      sender = none ∧ ∃ a, audience = some a ∧ a.canonical = recipient

/-- What a proof that bound found on its receipt. -/
theorem bindFromPrior_eq_bound {proof : VerifiedFromPrior} {receipt : Receipt} {bound : BoundChange}
    (h : bindFromPrior P proof receipt = .bound bound) :
    ∃ recipient, Names P receipt.recipient recipient ∧ recipient ≠ proof.issuer.canonical ∧
      Binds P receipt.sender recipient proof.issuer.canonical proof.change bound := by
  rw [bindFromPrior] at h
  split at h
  · cases h
  · split at h
    · cases h
    · next recipient hrecipient =>
        obtain ⟨-, hnames⟩ := names_of_canonicalDid hrecipient
        split at h
        · cases h
        · next sender hsender =>
            split at h
            · cases h
            · next hother =>
                refine ⟨recipient.canonical, hnames, hother, ?_⟩
                cases hchange : proof.change with
                | rotate successor =>
                    simp only [hchange, bindRotation] at h
                    split at h
                    · cases h
                    · next sender =>
                        split at h
                        · cases h
                        · next hsame =>
                            split at h
                            · cases h
                            · next hdistinct =>
                                cases h
                                obtain ⟨presented, hpresented, hnames⟩ := receiptSender_eq_some hsender
                                exact ⟨rfl, hdistinct, presented, hpresented, not_not.mp hsame ▸ hnames⟩
                | ending audience =>
                    simp only [hchange, bindEnding] at h
                    split at h
                    · cases h
                    · cases h
                    · next audience =>
                        split at h
                        · cases h
                        · next hsame =>
                            cases h
                            exact ⟨rfl, receiptSender_eq_none hsender, audience, rfl, not_not.mp hsame⟩

theorem bound_rotate {proof : VerifiedFromPrior} {receipt : Receipt} {recipient issuer successor : Did}
    (h : bindFromPrior P proof receipt = .bound (.rotate recipient issuer successor)) :
    Names P receipt.recipient recipient ∧ recipient ≠ issuer ∧ recipient ≠ successor ∧
      issuer = proof.issuer.canonical ∧
      (∃ spelled, proof.change = .rotate spelled ∧ spelled.canonical = successor) ∧
      ∃ sender, receipt.sender = some sender ∧ Names P sender successor := by
  obtain ⟨did, hrecipient, hother, hbinds⟩ := bindFromPrior_eq_bound h
  cases hchange : proof.change with
  | rotate spelled =>
      rw [hchange] at hbinds
      obtain ⟨heq, hdistinct, hsender⟩ := hbinds
      cases heq
      exact ⟨hrecipient, hother, hdistinct, rfl, ⟨spelled, rfl, rfl⟩, hsender⟩
  | ending audience =>
      rw [hchange] at hbinds
      cases hbinds.1

theorem bound_ending {proof : VerifiedFromPrior} {receipt : Receipt} {recipient issuer : Did}
    (h : bindFromPrior P proof receipt = .bound (.ending recipient issuer)) :
    Names P receipt.recipient recipient ∧ recipient ≠ issuer ∧ issuer = proof.issuer.canonical ∧
      (∃ a, proof.change = .ending (some a) ∧ a.canonical = recipient) ∧ receipt.sender = none := by
  obtain ⟨did, hrecipient, hother, hbinds⟩ := bindFromPrior_eq_bound h
  cases hchange : proof.change with
  | rotate spelled =>
      rw [hchange] at hbinds
      cases hbinds.1
  | ending audience =>
      rw [hchange] at hbinds
      obtain ⟨heq, hsender, a, rfl, ha⟩ := hbinds
      cases heq
      exact ⟨hrecipient, hother, rfl, ⟨a, rfl, ha⟩, hsender⟩

/-! ## Agreement -/

/-- What binds as a rotation passed with the receipt's sender. -/
theorem precheckFromPrior_of_bound_rotate (follows : P.Follows) {token : JsString} {longForm : Did}
    {proof : VerifiedFromPrior} {receipt : Receipt} {recipient issuer successor : Did}
    (hproof : verifyFromPrior P token longForm = .ok proof)
    (hbound : bindFromPrior P proof receipt = .bound (.rotate recipient issuer successor)) :
    ∃ sender unverified, receipt.sender = some sender ∧ Names P sender successor ∧
      precheckFromPrior P token (some sender) = .ok unverified ∧ Carries unverified.claims proof := by
  obtain ⟨decoded, hdecoded, hchecked, -, -, hiat⟩ := verifyFromPrior_eq_ok follows hproof
  obtain ⟨-, -, -, -, ⟨spelled, hchange, rfl⟩, sender, hsender, hnames⟩ := bound_rotate hbound
  have hcarries := carries_of_checkProfile hchecked hiat
  rw [hchange] at hchecked
  exact ⟨sender, unverifiedOf decoded, hsender, hnames,
    precheckFromPrior_successor hdecoded hchecked hnames, hcarries⟩

/-- The precheck accepts whatever verifies and, with the receipt's sender, whatever binds, and
what it returns is what the proof carries. What it refuses never verifies or binds. -/
theorem precheckFromPrior_agrees (follows : P.Follows) (token : JsString) :
    (∀ longForm proof, verifyFromPrior P token longForm = .ok proof →
      (∃ decoded, decode P token = .ok decoded ∧
        checkProfile P decoded = .ok (proof.issuer, proof.change) ∧
        precheckFromPrior P token none = .ok (unverifiedOf decoded) ∧
        Carries (unverifiedOf decoded).claims proof) ∧
      longToShort longForm = .ok proof.issuer.canonical ∧
      ∀ receipt,
        (∀ recipient issuer successor,
          bindFromPrior P proof receipt = .bound (.rotate recipient issuer successor) →
          (∃ sender unverified, receipt.sender = some sender ∧ Names P sender successor ∧
            precheckFromPrior P token (some sender) = .ok unverified ∧
            Carries unverified.claims proof) ∧
          Names P receipt.recipient recipient ∧ Names P proof.issuer.presented issuer ∧
          recipient ≠ issuer ∧ recipient ≠ successor ∧ issuer ≠ successor) ∧
        (∀ recipient issuer, bindFromPrior P proof receipt = .bound (.ending recipient issuer) →
          receipt.sender = none ∧ Names P receipt.recipient recipient ∧
          Names P proof.issuer.presented issuer ∧ recipient ≠ issuer ∧
          ∃ unverified aud, precheckFromPrior P token none = .ok unverified ∧
            unverified.claims.aud = some aud ∧ Names P aud recipient)) ∧
    (∀ failure, precheckFromPrior P token none = .error failure →
      ∀ longForm proof, verifyFromPrior P token longForm ≠ .ok proof) ∧
    (∀ sender failure, precheckFromPrior P token (some sender) = .error failure →
      ∀ longForm proof, verifyFromPrior P token longForm = .ok proof →
        ∀ receipt, receipt.sender = some sender →
          ∀ bound, bindFromPrior P proof receipt ≠ .bound bound) := by
  refine ⟨?_, ?_, ?_⟩
  · intro longForm proof hproof
    obtain ⟨decoded, hdecoded, hchecked, hshort, -, hiat⟩ := verifyFromPrior_eq_ok follows hproof
    obtain ⟨hissuer, hchanged⟩ := checkProfile_eq_ok hchecked
    obtain ⟨hspell, helsewhere⟩ := profileChange_eq_ok hchanged
    obtain ⟨hpresented, hnames⟩ := names_of_canonicalDid (hissuer [])
    rw [← hpresented] at hnames
    have hprecheck := precheckFromPrior_none hdecoded hchecked
    refine ⟨⟨decoded, hdecoded, hchecked, hprecheck, carries_of_checkProfile hchecked hiat⟩, hshort,
      fun receipt => ⟨?_, ?_⟩⟩
    · intro recipient issuer successor hbound
      obtain ⟨hrecipient, hother, hdistinct, rfl, ⟨spelled, hchange, rfl⟩, -⟩ := bound_rotate hbound
      rw [hchange] at helsewhere
      exact ⟨precheckFromPrior_of_bound_rotate follows hproof hbound, hrecipient, hnames, hother,
        hdistinct, helsewhere.2.symm⟩
    · intro recipient issuer hbound
      obtain ⟨hrecipient, hother, rfl, ⟨a, hchange, rfl⟩, hsender⟩ := bound_ending hbound
      rw [hchange] at hspell helsewhere
      exact ⟨hsender, hrecipient, hnames, hother, unverifiedOf decoded, a.presented, hprecheck,
        hspell.2, (helsewhere a rfl).1⟩
  · intro failure hfailed longForm proof hproof
    obtain ⟨decoded, hdecoded, hchecked, -⟩ := verifyFromPrior_eq_ok follows hproof
    rw [precheckFromPrior_none hdecoded hchecked] at hfailed
    cases hfailed
  · intro sender failure hfailed longForm proof hproof receipt hsender bound hbound
    cases bound with
    | rotate recipient issuer successor =>
        obtain ⟨did, unverified, hdid, -, hpassed, -⟩ :=
          precheckFromPrior_of_bound_rotate follows hproof hbound
        rw [hsender, Option.some.injEq] at hdid
        rw [hdid, hpassed] at hfailed
        cases hfailed
    | ending recipient issuer =>
        obtain ⟨-, -, -, -, hnone⟩ := bound_ending hbound
        rw [hsender] at hnone
        cases hnone

end

/-! ## A rotation -/

def exampleIssuer : Did := lit "did:peer:4zQmYtRtGAXs9mKgxMzcW9BboCpUZLMijKpweccYFbfFK1hQ"
def exampleSuccessor : Did := lit "did:peer:4zQmR82qbXZjZZYijpedjHPKNzLoCTon5ioSoJdBiUsdqQdF"
def exampleRecipient : Did := lit "did:peer:4zQmTrq9eaoLJwRnvzewJRpUUDLL3KM7RLsKJJ3JuiV6fY4p"

def exampleDocument : JsString :=
  lit "\x7b\"authentication\":[\x7b\"id\":\"#k\"," ++
    lit "\"publicKeyMultibase\":\"z6MktwupdmLXVVqTzCw4i46r4uGyosGXRnR3XjN4Zq7oMMsw\"\x7d]\x7d"

/-- The issuer's document behind its hash. -/
def exampleLongForm : Did :=
  exampleIssuer ++ lit ":z" ++
    lit "BwFgbiLeHje9XPqAqJLTkRf42cordwLfoZaVFb7UsUm5Ks6v4q9yAgWQsJGZxNJN72WHt1Q3" ++
    lit "BSEHPoxGhy3nBNsqnJvJfWEDrrPM3GrSDu9axhFceF6XA8VWsDPkmgYLGshpgDYrySL8d51uv"

def exampleKid : JsString := exampleIssuer ++ lit "#k"

def exampleHeader : JsString :=
  lit "\x7b\"alg\":\"EdDSA\",\"kid\":\"" ++ exampleKid ++ lit "\"\x7d"

def examplePayload : JsString :=
  lit "\x7b\"iss\":\"" ++ exampleIssuer ++ lit "\",\"sub\":\"" ++ exampleSuccessor ++
    lit "\",\"iat\":0\x7d"

/-- The tagged key of the document's method. -/
def exampleKey : List UInt8 :=
  [0xED, 0x01, 0xD7, 0x5A, 0x98, 0x01, 0x82, 0xB1, 0x0A, 0xB7, 0xD5, 0x4B, 0xFE, 0xD3, 0xC9,
   0x64, 0x07, 0x3A, 0x0E, 0xE1, 0x72, 0xF3, 0xDA, 0xA6, 0x23, 0x25, 0xAF, 0x02, 0x1A, 0x68,
   0xF7, 0x07, 0x51, 0x1A]

def exampleSignature : List UInt8 :=
  [0x04, 0x8A, 0xA0, 0x7F, 0x8C, 0xFB, 0xA3, 0x08, 0xEB, 0xC4, 0x6B, 0x16, 0xBF, 0xE3, 0xE9,
   0x02, 0x81, 0x44, 0xB2, 0xF0, 0xA9, 0xE7, 0xFF, 0x21, 0x68, 0x84, 0xFA, 0x3D, 0x3F, 0xCA,
   0x8F, 0xA6, 0x17, 0x37, 0x7C, 0xED, 0xF6, 0x43, 0x4F, 0xBB, 0x55, 0x62, 0x38, 0xCF, 0x05,
   0x29, 0xB9, 0x2F, 0x3C, 0xF5, 0x4D, 0xAB, 0xE6, 0x79, 0x70, 0x8F, 0x2F, 0xE3, 0xA1, 0x3E,
   0xC8, 0x12, 0x84, 0x0B]

def segment (text : JsString) : JsString := Base64.url.encode (encodeUtf8 text)

def exampleToken : JsString :=
  segment exampleHeader ++ Json.dot :: (segment examplePayload ++
    Json.dot :: Base64.url.encode exampleSignature)

/-- The object a segment encodes. -/
def segmentMembers (segment : JsString) : Except JsString Members :=
  match ((Base64.url.decode segment).bind TextDecoder.decodeFatal).bind
      (Json.parse EventStore.patternNumbers) with
  | some (.object members) => .ok members
  | _ => .error (lit "Invalid JWT")

/-- Hashing and base58 are given for all that the example has of them, and one signature
verifies. -/
def examplePackages : Packages where
  sha256 _ :=
    [0x9C, 0xB8, 0xF4, 0x38, 0xAF, 0x94, 0x64, 0x11, 0x71, 0x10, 0x32, 0x4C, 0x52, 0x21, 0xDC,
     0x81, 0x64, 0x46, 0x19, 0x5E, 0x7C, 0xB3, 0x6D, 0x20, 0xB7, 0x8B, 0x73, 0x29, 0x9A, 0x8E,
     0x15, 0x17]
  bs58Encode _ := exampleIssuer.drop 11
  bs58Decode _ := .ok (DidPeer.MULTICODEC_JSON ++ encodeUtf8 exampleDocument)
  serialize v := .ok (Json.canonicalText EventStore.patternNumbers v)
  numbers := EventStore.patternNumbers
  syntaxError _ := lit "not JSON"
  base64urlnopadDecode := Base64.url.decode
  base64urlnopadEncode := Base64.url.encode
  base58Decode _ := some exampleKey
  decodeProtectedHeader jwt :=
    match jwt.splitOn Json.dot with
    | header :: _ => segmentMembers header
    | [] => .error (lit "Invalid Token or Protected Header formatting")
  decodeJwt jwt :=
    match jwt.splitOn Json.dot with
    | [_, payload, _] => segmentMembers payload
    | _ => .error (lit "Invalid JWT")
  compactVerify jwt key :=
    if jwt = exampleToken ∧ text? (member key (lit "x")) = some (Base64.url.encode (exampleKey.drop 2))
    then .ok (encodeUtf8 examplePayload) else .error .signature

theorem dot_notMem_encode (bytes : List UInt8) : Json.dot ∉ Base64.url.encode bytes := by
  intro h
  exact absurd (Base64.Alphabet.letter_of_mem_encode h) (by decide)

theorem splitOn_exampleToken : exampleToken.splitOn Json.dot =
    [segment exampleHeader, segment examplePayload, Base64.url.encode exampleSignature] := by
  rw [exampleToken, segment, segment, List.splitOn_append_cons_self_of_not_mem (dot_notMem_encode _),
    List.splitOn_append_cons_self_of_not_mem (dot_notMem_encode _),
    List.splitOn_eq_singleton (dot_notMem_encode _)]

theorem exampleFollows : examplePackages.Follows where
  decodeJwt := by
    intro jwt header payload signature bytes claims hsplit hbytes hclaims
    simp only [examplePackages, hsplit, segmentMembers] at hbytes hclaims
    rw [hbytes, Option.bind_some] at hclaims
    split at hclaims
    · next members hparsed =>
        cases hclaims
        exact Option.bind_eq_some_iff.mp hparsed
    · cases hclaims
  compactVerify := by
    intro jwt header payload signature bytes verified members key hsplit hbytes _ _ hverified
    simp only [examplePackages] at hbytes hverified
    split at hverified
    · next htoken =>
        cases hverified
        rw [htoken.1, splitOn_exampleToken] at hsplit
        cases hsplit
        rw [segment, Base64.Alphabet.decode_encode] at hbytes
        exact Option.some.inj hbytes
    · cases hverified

/-- Both texts are well formed and begin with no mark. -/
theorem example_texts :
    (Utf16.loneSurrogate examplePayload = false ∧
      (encodeUtf8 examplePayload).take 3 ≠ [0xEF, 0xBB, 0xBF]) ∧
    Utf16.loneSurrogate exampleHeader = false ∧
      (encodeUtf8 exampleHeader).take 3 ≠ [0xEF, 0xBB, 0xBF] := by
  rw [examplePayload, exampleHeader, exampleKid, exampleIssuer, exampleSuccessor]
  repeat rw [lit_ofList]
  decide +kernel

theorem segmentMembers_segment {text : JsString} {parsed : Members}
    (hdecoded : TextDecoder.decodeFatal (encodeUtf8 text) = some text)
    (hparsed : Json.parse EventStore.patternNumbers text = some (.object parsed)) :
    segmentMembers (segment text) = .ok parsed := by
  rw [segmentMembers, segment, Base64.Alphabet.decode_encode, Option.bind_some, hdecoded,
    Option.bind_some, hparsed]

/-- The claims the example spells. -/
def exampleClaims : TokenClaims := ⟨exampleIssuer, some exampleSuccessor, none, Binary64.ofBits 0⟩

theorem examplePayload_claims :
    ∃ parsed, Json.parse EventStore.patternNumbers examplePayload = some (.object parsed) ∧
      claimsOf parsed = .ok exampleClaims := by
  have hread : (match Json.parse EventStore.patternNumbers examplePayload with
      | some (.object parsed) => claimsOf parsed
      | _ => .error (form [])) = .ok exampleClaims := by
    rw [examplePayload, exampleClaims, exampleIssuer, exampleSuccessor]
    repeat rw [lit_ofList]
    decide +kernel
  split at hread
  · next parsed hparsed => exact ⟨parsed, hparsed, hread⟩
  · cases hread

/-- What is read of a header. -/
def headerOf (header : Members) : (Option JsString × Option JsString) × Bool × Bool × Bool :=
  ((text? (member header (lit "alg")), text? (member header (lit "kid"))),
    (member header (lit "typ")).isSome, (member header (lit "crit")).isSome,
    (member header (lit "b64")).isSome)

theorem exampleHeader_members :
    ∃ parsed, Json.parse EventStore.patternNumbers exampleHeader = some (.object parsed) ∧
      headerOf parsed = ((some FROM_PRIOR_ALG, some exampleKid), false, false, false) := by
  have hread : (match Json.parse EventStore.patternNumbers exampleHeader with
      | some (.object parsed) => headerOf parsed
      | _ => ((none, none), false, false, false)) =
        ((some FROM_PRIOR_ALG, some exampleKid), false, false, false) := by
    rw [exampleHeader, exampleKid, exampleIssuer]
    repeat rw [lit_ofList]
    decide +kernel
  split at hread
  · next parsed hparsed => exact ⟨parsed, hparsed, hread⟩
  · cases hread

theorem decode_exampleToken :
    ∃ members, decode examplePackages exampleToken =
        .ok ⟨members, ⟨FROM_PRIOR_ALG, none, exampleKid⟩, exampleClaims⟩ ∧
      (member members (lit "crit")).isSome = false := by
  obtain ⟨claims, hclaims, hread⟩ := examplePayload_claims
  obtain ⟨header, hheader, hparts⟩ := exampleHeader_members
  simp only [headerOf, Prod.mk.injEq, Option.isSome_eq_false_iff, Option.isNone_iff_eq_none] at hparts
  obtain ⟨⟨halg, hkid⟩, htyp, hcrit, hb64⟩ := hparts
  have hsegments : checkSegments examplePackages exampleToken = .ok () := by
    rw [checkSegments, splitOn_exampleToken]
    simp only [segmentBytes, examplePackages, segment, Base64.Alphabet.decode_encode,
      Checked.pure_eq_ok, Checked.ok_bind]
    exact Checked.refuse_of_not (by decide)
  have hmembers : examplePackages.decodeProtectedHeader exampleToken = .ok header := by
    simp only [examplePackages, splitOn_exampleToken]
    exact segmentMembers_segment
      (TextDecoder.decodeFatal_encodeUtf8 example_texts.2.1 example_texts.2.2) hheader
  have hpayload : examplePackages.decodeJwt exampleToken = .ok claims := by
    simp only [examplePackages, splitOn_exampleToken]
    exact segmentMembers_segment
      (TextDecoder.decodeFatal_encodeUtf8 example_texts.1.1 example_texts.1.2) hclaims
  have hextensions : checkHeaderExtensions header = .ok () := by
    simp only [checkHeaderExtensions, critNames, hcrit, hb64]
    rfl
  refine ⟨header, ?_, by rw [hcrit]; rfl⟩
  rw [decode, hsegments, hmembers, hpayload]
  simp only [Checked.ok_bind, caught, halg, hkid, htyp, hextensions, hread]
  rfl

theorem canonicalDid_short {did : Did} (h : isShortForm did = true) (what : JsString) :
    canonicalDid examplePackages did what = .ok ⟨did, did⟩ := by
  rw [canonicalDid, if_pos h]
  rfl

/-- The three DIDs are short forms, and no two of them are one. -/
theorem exampleDids :
    (isShortForm exampleIssuer = true ∧ isShortForm exampleSuccessor = true ∧
      isShortForm exampleRecipient = true) ∧
    exampleSuccessor ≠ exampleIssuer ∧ exampleRecipient ≠ exampleIssuer ∧
      exampleRecipient ≠ exampleSuccessor := by
  rw [exampleIssuer, exampleSuccessor, exampleRecipient]
  repeat rw [lit_ofList]
  decide +kernel

theorem checkProfile_exampleToken {members : Members} (h : (member members (lit "crit")).isSome = false) :
    checkProfile examplePackages ⟨members, ⟨FROM_PRIOR_ALG, none, exampleKid⟩, exampleClaims⟩ =
      .ok (⟨exampleIssuer, exampleIssuer⟩, .rotate ⟨exampleSuccessor, exampleSuccessor⟩) := by
  have hcrit : critNames members = none := by
    rw [Option.isSome_eq_false_iff, Option.isNone_iff_eq_none] at h
    rw [critNames, h]
  have hkid : methodUrl examplePackages exampleKid (lit "kid") =
      .ok (⟨exampleIssuer, exampleIssuer⟩, lit "k") := by
    rw [exampleKid, exampleIssuer]
    repeat rw [lit_ofList]
    decide +kernel
  obtain ⟨⟨hissuer, hsuccessor, -⟩, hdistinct, -⟩ := exampleDids
  simp only [checkProfile, hcrit, exampleClaims, canonicalDid_short hissuer, hkid, profileChange,
    canonicalDid_short hsuccessor, Option.getD_none, List.find?_nil, Checked.ok_bind,
    Checked.refuse_of_not hdistinct]
  rfl

theorem exampleMethod :
    ∃ document method,
      issuerDocument examplePackages exampleLongForm ⟨exampleIssuer, exampleIssuer⟩ = .ok document ∧
      authenticationMethod examplePackages exampleLongForm document exampleKid = .ok method ∧
      method.id = exampleKid ∧
      text? (member method.key (lit "x")) = some (Base64.url.encode (exampleKey.drop 2)) := by
  have hread : (do
      let document ← issuerDocument examplePackages exampleLongForm ⟨exampleIssuer, exampleIssuer⟩
      let method ← authenticationMethod examplePackages exampleLongForm document exampleKid
      pure (method.id, text? (member method.key (lit "x")))) =
        Except.ok (exampleKid, some (Base64.url.encode (exampleKey.drop 2))) := by
    rw [examplePackages, exampleKid, exampleLongForm, exampleDocument, exampleIssuer]
    repeat rw [lit_ofList]
    decide +kernel
  obtain ⟨document, hdocument, hread⟩ := bind_eq_ok.mp hread
  obtain ⟨method, hmethod, hread⟩ := bind_eq_ok.mp hread
  simp only [Checked.pure_eq_ok, Except.ok.injEq, Prod.mk.injEq] at hread
  exact ⟨document, method, hdocument, hmethod, hread.1, hread.2⟩

def exampleProof : VerifiedFromPrior :=
  ⟨exampleToken, ⟨exampleIssuer, exampleIssuer⟩, .rotate ⟨exampleSuccessor, exampleSuccessor⟩,
    Binary64.ofBits 0, exampleKid⟩

theorem exampleToken_verifies :
    verifyFromPrior examplePackages exampleToken exampleLongForm = .ok exampleProof := by
  obtain ⟨members, hdecoded, hcrit⟩ := decode_exampleToken
  have hchecked := checkProfile_exampleToken hcrit
  obtain ⟨document, method, hdocument, hmethod, hid, hkey⟩ := exampleMethod
  have hverified : examplePackages.compactVerify exampleToken method.key =
      .ok (encodeUtf8 examplePayload) := by
    simp only [examplePackages, hkey, and_self, if_true]
  have hclaims := verifiedClaims_of_compactVerify exampleFollows hdecoded hverified
  obtain ⟨hissuer, hchange⟩ := checkProfile_eq_ok hchecked
  rw [verifyFromPrior, hdecoded, Checked.ok_bind, hchecked, Checked.ok_bind, hdocument,
    Checked.ok_bind, hmethod, Checked.ok_bind, hverified]
  simp only [hclaims, Checked.ok_bind, hissuer, hchange, hid]
  rfl

/-- The receipt the example arrives on. -/
def exampleReceipt : Receipt := ⟨exampleToken, exampleRecipient, some exampleSuccessor⟩

theorem exampleProof_bound : bindFromPrior examplePackages exampleProof exampleReceipt =
    .bound (.rotate exampleRecipient exampleIssuer exampleSuccessor) := by
  obtain ⟨⟨-, hsender, hreceiver⟩, -, hissuer, hsuccessor⟩ := exampleDids
  simp only [bindFromPrior, exampleReceipt, exampleProof, canonicalDid_short hreceiver, receiptSender,
    canonicalDid_short hsender, bindRotation, Checked.ok_bind, Checked.pure_eq_ok, ne_eq,
    not_true_eq_false, if_false, if_neg hissuer, if_neg hsuccessor]

theorem precheckFromPrior_agrees_example :
    verifyFromPrior examplePackages exampleToken exampleLongForm = .ok exampleProof ∧
      bindFromPrior examplePackages exampleProof exampleReceipt =
        .bound (.rotate exampleRecipient exampleIssuer exampleSuccessor) ∧
      ∃ unverified, precheckFromPrior examplePackages exampleToken (some exampleSuccessor) =
        .ok unverified ∧ Carries unverified.claims exampleProof := by
  obtain ⟨-, -, hreceipts⟩ := (precheckFromPrior_agrees exampleFollows exampleToken).1
    exampleLongForm exampleProof exampleToken_verifies
  obtain ⟨⟨sender, unverified, hsender, -, hpassed, hcarries⟩, -⟩ :=
    (hreceipts exampleReceipt).1 _ _ _ exampleProof_bound
  cases hsender
  exact ⟨exampleToken_verifies, exampleProof_bound, unverified, hpassed, hcarries⟩

end Estoc.FromPrior
