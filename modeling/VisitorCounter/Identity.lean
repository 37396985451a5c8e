import VisitorCounter.Visitor
import VisitorCounter.Library.Fields

/-!
# Who a visitor is

A request is identified by its source IP and its user agent.  Requests of bots
and incomplete ones are turned away; of the others the two texts are hashed, and
four bytes of the hash are the visitor's tag.  The texts are hashed one after
the other without a mark between them, so that the end of an address can also be
the beginning of a user agent.

## Main Definitions

* `RequestInfo.tryFrom`: what is extracted from a request
* `Visitor.hasher`, `Visitor.ofRequestInfo`: what is hashed, and the visitor
* `Blurred a b`: the address of `b` continues that of `a` into its user agent

## Main Results

* `tryFrom_eq_ok_iff`: which requests are accepted
* `hashed_eq_iff`: when the same bytes are hashed for two requests
* `hashed_ne_iff_not_blurred`: two accepted requests are told apart unless they
  are blurred
-/

namespace VisitorCounter

open Fields

/-! ### The request -/

/-- `ApiGatewayV2httpRequestContextHttpDescription`, as far as it is read. -/
structure HttpDescription where
  userAgent : Option String
  sourceIp : Option String
deriving DecidableEq, Repr

/-- `RequestContext`: the one kind that the enabled features leave. -/
inductive RequestContext where
  | apiGatewayV2 (http : HttpDescription)
deriving DecidableEq, Repr

/-- `lambda_http::Request`, as far as it is read: the context is an extension that
may be missing. -/
structure Request where
  requestContext : Option RequestContext
deriving DecidableEq, Repr

/-- An error extracting request information from the request. -/
inductive RequestInfoError where
  | missingUserAgent
  | missingSourceIp
  | looksLikeABot
deriving DecidableEq, Repr

/-- `impl fmt::Display for RequestInfoError`. -/
def RequestInfoError.fmt : RequestInfoError → String
  | .missingUserAgent => "request has no user agent"
  | .missingSourceIp => "request has no source IP"
  | .looksLikeABot => "request looks like a bot"

/-- The message tells which check has failed. -/
theorem fmt_injective : Function.Injective RequestInfoError.fmt := by
  intro a b h
  cases a <;> cases b <;> first | rfl | exact absurd h (by decide)

/-- Information extracted from a request that is needed to semi-uniquely identify
a visitor. -/
structure RequestInfo where
  userAgent : String
  sourceIp : String
deriving DecidableEq, Repr

/-- `Option::ok_or`. -/
def okOr {ε α : Type} (value : Option α) (error : ε) : Except ε α :=
  match value with
  | some a => .ok a
  | none => .error error

/-- What `RequestInfo::try_from` makes of the context, with the bot checker as a
parameter. -/
def RequestInfo.ofHttp (isBot : String → Bool) (http : HttpDescription) :
    Except RequestInfoError RequestInfo := do
  let userAgent ← okOr http.userAgent .missingUserAgent
  if isBot userAgent then throw .looksLikeABot
  let sourceIp ← okOr http.sourceIp .missingSourceIp
  return { userAgent := userAgent, sourceIp := sourceIp }

/-- `RequestInfo::try_from`. -/
def RequestInfo.tryFrom (isBot : String → Bool) (value : Request) :
    Except Panic (Except RequestInfoError RequestInfo) := do
  let .apiGatewayV2 http ← expect value.requestContext "missing request context"
  return RequestInfo.ofHttp isBot http

@[simp] theorem tryFrom_some (isBot : String → Bool) (http : HttpDescription) :
    RequestInfo.tryFrom isBot ⟨some (.apiGatewayV2 http)⟩ = .ok (RequestInfo.ofHttp isBot http) :=
  rfl

/-- A bot is turned away whether or not its address is known. -/
theorem ofHttp_of_isBot {isBot : String → Bool} {userAgent : String} {sourceIp : Option String}
    (h : isBot userAgent = true) :
    RequestInfo.ofHttp isBot ⟨some userAgent, sourceIp⟩ = .error .looksLikeABot := by
  simp [RequestInfo.ofHttp, okOr, h, bind, Except.bind, throw, throwThe, MonadExceptOf.throw]

/-- Of another visitor the address must be known. -/
theorem ofHttp_of_not_isBot {isBot : String → Bool} {userAgent : String}
    {sourceIp : Option String} (h : isBot userAgent = false) :
    RequestInfo.ofHttp isBot ⟨some userAgent, sourceIp⟩ =
      match sourceIp with
      | some ip => .ok ⟨userAgent, ip⟩
      | none => .error .missingSourceIp := by
  cases sourceIp with
  | none => simp [RequestInfo.ofHttp, okOr, h, bind, Except.bind]
  | some ip => simp [RequestInfo.ofHttp, okOr, h, bind, Except.bind, pure, Except.pure]

/-- Exactly the complete requests that do not look like a bot are accepted. -/
theorem tryFrom_eq_ok_iff {isBot : String → Bool} {value : Request} {info : RequestInfo} :
    RequestInfo.tryFrom isBot value = .ok (.ok info) ↔
      value.requestContext = some (.apiGatewayV2 ⟨some info.userAgent, some info.sourceIp⟩) ∧
        isBot info.userAgent = false := by
  obtain ⟨context⟩ := value
  cases context with
  | none => simp [RequestInfo.tryFrom]
  | some context =>
    obtain ⟨⟨userAgent, sourceIp⟩⟩ := context
    obtain ⟨agent, ip⟩ := info
    rw [tryFrom_some, Except.ok.injEq]
    cases userAgent with
    | none => simp [RequestInfo.ofHttp, okOr, bind_eq_ok_iff]
    | some userAgent =>
      cases hbot : isBot userAgent with
      | true =>
        -- a bot is turned away before its address is looked at
        rw [ofHttp_of_isBot hbot]
        simp only [reduceCtorEq, Option.some.injEq, false_iff, not_and, Bool.not_eq_false]
        rintro h
        obtain ⟨rfl, -⟩ : userAgent = agent ∧ sourceIp = some ip := by simpa using h
        exact hbot
      | false =>
        rw [ofHttp_of_not_isBot hbot]
        cases sourceIp with
        | none => simp
        | some sourceIp =>
          simp only [Except.ok.injEq, RequestInfo.mk.injEq, Option.some.injEq,
            RequestContext.apiGatewayV2.injEq, HttpDescription.mk.injEq]
          exact ⟨fun ⟨h, h'⟩ => ⟨⟨h, h'⟩, h ▸ hbot⟩, fun ⟨h, _⟩ => h⟩

/-! ### The hash -/

/-- The state of an MD5 computation: what it has been fed. -/
structure Hasher where
  input : ByteArray

/-- `Md5::new`. -/
def Hasher.new : Hasher := ⟨ByteArray.empty⟩

/-- `Digest::update`: the bytes are taken one after the other, across calls. -/
def Hasher.update (hasher : Hasher) (data : ByteArray) : Hasher := ⟨hasher.input ++ data⟩

/-- `u32_from_ne_bytes`, on a little-endian machine. -/
def u32FromNeBytes (bytes : Vector UInt8 4) : UInt32 :=
  bytes[0].toUInt32 ||| bytes[1].toUInt32 <<< 8 ||| bytes[2].toUInt32 <<< 16 |||
    bytes[3].toUInt32 <<< 24

/-- The hasher of `impl From<&RequestInfo> for Visitor`, fed. -/
def Visitor.hasher (value : RequestInfo) : Hasher :=
  (Hasher.new.update value.sourceIp.toUTF8).update value.userAgent.toUTF8

/-- `impl From<&RequestInfo> for Visitor`, with the MD5 function and the clock as
parameters: the tag is the first 32 bits of the hash. -/
def Visitor.ofRequestInfo (md5 : ByteArray → Vector UInt8 16) (now : ℤ) (value : RequestInfo) :
    Visitor where
  tag :=
    let hash := md5 (Visitor.hasher value).input
    u32FromNeBytes #v[hash[0], hash[1], hash[2], hash[3]]
  lastSeen := now

example : u32FromNeBytes #v[0x04, 0x03, 0x02, 0x01] = 16909060 := by decide

/-- The hash sees the two texts as one. -/
theorem hasher_input (value : RequestInfo) :
    (Visitor.hasher value).input = (value.sourceIp ++ value.userAgent).toByteArray := by
  rw [String.toByteArray_append]
  show ByteArray.empty ++ value.sourceIp.toByteArray ++ value.userAgent.toByteArray = _
  rw [ByteArray.empty_append]

/-- Visitors of whom the same bytes are hashed have the same tag, whatever the hash. -/
theorem tag_eq_of_hasher_eq (md5 : ByteArray → Vector UInt8 16) (now now' : ℤ)
    {a b : RequestInfo} (h : (Visitor.hasher a).input = (Visitor.hasher b).input) :
    (Visitor.ofRequestInfo md5 now a).tag = (Visitor.ofRequestInfo md5 now' b).tag := by
  simp only [Visitor.ofRequestInfo, h]

/-! ### Where the two texts meet -/

/-- The source IP of `b` is that of `a` followed by a text with which the user
agent of `a` begins, and the rest of that user agent is the one of `b`. -/
def Blurred (a b : RequestInfo) : Prop :=
  ∃ w : String, w ≠ "" ∧ b.sourceIp = a.sourceIp ++ w ∧ a.userAgent = w ++ b.userAgent

/-- The two fields as pairs of characters. -/
def RequestInfo.fields (info : RequestInfo) : List Char × List Char :=
  (info.sourceIp.toList, info.userAgent.toList)

theorem fields_inj {a b : RequestInfo} : a.fields = b.fields ↔ a = b := by
  obtain ⟨agent, ip⟩ := a
  obtain ⟨agent', ip'⟩ := b
  simp only [RequestInfo.fields, Prod.mk.injEq, String.toList_inj, RequestInfo.mk.injEq]
  exact and_comm

theorem blurred_iff_shifted {a b : RequestInfo} : Blurred a b ↔ Shifted a.fields b.fields := by
  constructor
  · rintro ⟨w, hw, hip, hagent⟩
    refine ⟨w.toList, by simpa using hw, ?_, ?_⟩
    · show b.sourceIp.toList = a.sourceIp.toList ++ w.toList
      rw [hip, String.toList_append]
    · show a.userAgent.toList = w.toList ++ b.userAgent.toList
      rw [hagent, String.toList_append]
  · rintro ⟨w, hw, hip, hagent⟩
    refine ⟨String.ofList w, by simpa using hw, ?_, ?_⟩
    · apply String.toList_inj.mp
      rw [String.toList_append, String.toList_ofList]
      exact hip
    · apply String.toList_inj.mp
      rw [String.toList_append, String.toList_ofList]
      exact hagent

/-- **When the same bytes are hashed for two visitors.** -/
theorem hashed_eq_iff {a b : RequestInfo} :
    (Visitor.hasher a).input = (Visitor.hasher b).input ↔ a = b ∨ Blurred a b ∨ Blurred b a := by
  calc (Visitor.hasher a).input = (Visitor.hasher b).input
      ↔ a.sourceIp ++ a.userAgent = b.sourceIp ++ b.userAgent := by
        rw [hasher_input, hasher_input, String.toByteArray_inj]
    _ ↔ a.fields.1 ++ a.fields.2 = b.fields.1 ++ b.fields.2 := by
        rw [← String.toList_inj, String.toList_append, String.toList_append]
        rfl
    _ ↔ a = b ∨ Blurred a b ∨ Blurred b a := by
        rw [append_eq_append_iff_shifted, fields_inj, blurred_iff_shifted, blurred_iff_shifted]

/-- Source IPs of one length leave no room: different visitors are then told apart. -/
theorem hashed_ne_of_length_eq {a b : RequestInfo} (hne : a ≠ b)
    (hlen : a.sourceIp.length = b.sourceIp.length) :
    (Visitor.hasher a).input ≠ (Visitor.hasher b).input := by
  rw [Ne, hashed_eq_iff, blurred_iff_shifted, blurred_iff_shifted]
  rintro (h | h | h)
  · exact hne h
  · have := h.length_lt
    simp only [RequestInfo.fields, String.length_toList] at this
    omega
  · have := h.length_lt
    simp only [RequestInfo.fields, String.length_toList] at this
    omega

/-- **Different visitors are hashed differently unless they are blurred.** -/
theorem hashed_ne_iff_not_blurred (isBot : String → Bool) {value value' : Request}
    {info info' : RequestInfo} (_h : RequestInfo.tryFrom isBot value = .ok (.ok info))
    (_h' : RequestInfo.tryFrom isBot value' = .ok (.ok info')) (hne : info ≠ info') :
    (Visitor.hasher info).input ≠ (Visitor.hasher info').input ↔
      ¬ Blurred info info' ∧ ¬ Blurred info' info := by
  rw [Ne, hashed_eq_iff, not_or, not_or]
  exact and_iff_right hne

/-- A bot checker that knows one bot. -/
def onlyIrbot (userAgent : String) : Bool := userAgent == "irbot"

/-- The request with a user agent and a source IP. -/
def requestOf (userAgent sourceIp : String) : Request where
  requestContext := some (.apiGatewayV2 ⟨some userAgent, some sourceIp⟩)

/-- Two visitors at one address, told apart by their user agents. -/
theorem hashed_ne_iff_not_blurred_agents :
    (Visitor.hasher ⟨"test", "127.0.0.1"⟩).input ≠ (Visitor.hasher ⟨"test2", "127.0.0.1"⟩).input ↔
      ¬ Blurred ⟨"test", "127.0.0.1"⟩ ⟨"test2", "127.0.0.1"⟩ ∧
        ¬ Blurred ⟨"test2", "127.0.0.1"⟩ ⟨"test", "127.0.0.1"⟩ := by
  have h : RequestInfo.tryFrom onlyIrbot (requestOf "test" "127.0.0.1") =
      .ok (.ok ⟨"test", "127.0.0.1"⟩) := tryFrom_eq_ok_iff.mpr ⟨rfl, by decide⟩
  have h' : RequestInfo.tryFrom onlyIrbot (requestOf "test2" "127.0.0.1") =
      .ok (.ok ⟨"test2", "127.0.0.1"⟩) := tryFrom_eq_ok_iff.mpr ⟨rfl, by decide⟩
  exact hashed_ne_iff_not_blurred onlyIrbot h h' (by decide)

/-- The textual form of an IPv4 address. -/
def ipv4Text (a b c d : UInt8) : String := s!"{a}.{b}.{c}.{d}"

/-- The last digit of an address can be the first character of a user agent: two
accepted visitors have the same tag under every hash function. -/
theorem address_runs_into_agent :
    RequestInfo.tryFrom onlyIrbot (requestOf "foo bar baz" (ipv4Text 1 2 3 45)) =
        .ok (.ok ⟨"foo bar baz", "1.2.3.45"⟩) ∧
      RequestInfo.tryFrom onlyIrbot (requestOf "5foo bar baz" (ipv4Text 1 2 3 4)) =
        .ok (.ok ⟨"5foo bar baz", "1.2.3.4"⟩) ∧
      (⟨"foo bar baz", "1.2.3.45"⟩ : RequestInfo) ≠ ⟨"5foo bar baz", "1.2.3.4"⟩ ∧
      (Visitor.hasher ⟨"foo bar baz", "1.2.3.45"⟩).input =
        (Visitor.hasher ⟨"5foo bar baz", "1.2.3.4"⟩).input ∧
      ∀ (md5 : ByteArray → Vector UInt8 16) (now now' : ℤ),
        (Visitor.ofRequestInfo md5 now ⟨"foo bar baz", "1.2.3.45"⟩).tag =
          (Visitor.ofRequestInfo md5 now' ⟨"5foo bar baz", "1.2.3.4"⟩).tag := by
  have h : (Visitor.hasher ⟨"foo bar baz", "1.2.3.45"⟩).input =
      (Visitor.hasher ⟨"5foo bar baz", "1.2.3.4"⟩).input :=
    hashed_eq_iff.mpr (Or.inr (Or.inr ⟨"5", by decide, by decide, by decide⟩))
  refine ⟨?_, ?_, by decide, h, fun md5 now now' => tag_eq_of_hasher_eq md5 now now' h⟩
  · exact tryFrom_eq_ok_iff.mpr ⟨rfl, by decide⟩
  · exact tryFrom_eq_ok_iff.mpr ⟨rfl, by decide⟩

end VisitorCounter
