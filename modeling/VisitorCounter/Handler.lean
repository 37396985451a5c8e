import VisitorCounter.Conversation
import VisitorCounter.Identity
import VisitorCounter.Readback

/-!
# The request handler

`function_handler` answers one request: it turns away what is not for the root,
what looks like a bot and names that are not allowed, has the store count the
visitor, and answers with a PNG of the count.  It is a program over any monad
that offers the clock and the store.

## Main Definitions

* `Config`, `Config.fromEnv`: the configuration, from environment variables
* `Png`, `Crates`: what the handler relies on of other crates
* `HandlerRequest`, `Response`, `HandlerFailure`: what goes in and comes out
* `functionHandler`: the handler
* `admission`: what the handler decides before it reads the clock
-/

namespace VisitorCounter

/-! ### The configuration -/

/-- Configuration for the Lambda, set by environment variables. -/
structure Config where
  tableName : String
  /-- Minimum width of the rendered image in number of characters. -/
  minWidth : UInt64
  /-- Allowed counter names. -/
  allowedNames : List String
deriving DecidableEq, Repr

/-- `s.split(',').map(String::from).collect()`. -/
def splitCommas (s : String) : List String := (s.toList.splitOn ',').map String.ofList

/-- `Config::from_env`, with the environment as a parameter. -/
def Config.fromEnv (env : String → Option String) : Except Panic Config := do
  let tableName := (env "DGVC_TABLE_NAME").getD "garden-hit-counter"
  let minWidth ← match env "DGVC_MIN_WIDTH" with
    | some n => expect (parseU64 n) "called `Result::unwrap()` on an `Err` value"
    | none => pure 5
  let allowedNames := ((env "DGVC_ALLOWED_NAMES").map splitCommas).getD ["default"]
  return { tableName := tableName, minWidth := minWidth, allowedNames := allowedNames }

/-! ### Other crates -/

/-- The `png` crate, as far as the handler relies on it, at 8 bits and RGBA: the
encoder takes the pixels of an image of the announced size and of no other size,
and nothing of the image is lost. -/
structure Png where
  encode : UInt32 → UInt32 → Array UInt8 → Except BoxError (List UInt8)
  decode : List UInt8 → Option (UInt32 × UInt32 × Array UInt8)
  exists_encode : ∀ width height pixels, 0 < width.toNat → width.toNat < 2 ^ 31 →
    0 < height.toNat → height.toNat < 2 ^ 31 →
    pixels.size = width.toNat * height.toNat * 4 →
      ∃ bytes, encode width height pixels = .ok bytes
  size_of_encode : ∀ width height pixels bytes, encode width height pixels = .ok bytes →
    pixels.size = width.toNat * height.toNat * 4
  decode_encode : ∀ width height pixels bytes, encode width height pixels = .ok bytes →
    decode bytes = some (width, height, pixels)

/-- What the handler relies on of other crates. -/
structure Crates where
  /-- `isbot`. -/
  isBot : String → Bool
  /-- `md-5`. -/
  md5 : ByteArray → Vector UInt8 16
  /-- `http`: whether a text can be the value of a header. -/
  validHeaderValue : String → Bool
  png : Png

/-- `Render::to_png_bytes`. -/
def Render.toPngBytes (png : Png) (render : Render) : Except BoxError (List UInt8) :=
  png.encode (UInt32.ofNat render.width) (UInt32.ofNat render.height) render.pixels

/-! ### Requests and responses -/

/-- `lambda_http::Request`, with what the handler itself reads of it. -/
structure HandlerRequest extends Request where
  path : String
  queryStringParameters : Option (List (String × List String))
deriving DecidableEq, Repr

/-- The name of the counter from the query parameters. -/
def HandlerRequest.countName (event : HandlerRequest) : String :=
  (event.queryStringParameters.bind fun params =>
    (params.lookup "name").bind List.head?).getD "default"

/-- `Body`. -/
inductive Body where
  | empty
  | binary (bytes : List UInt8)
deriving DecidableEq, Repr

/-- `Response<Body>`. -/
structure Response where
  status : ℕ
  headers : List (String × String)
  body : Body
deriving DecidableEq, Repr

/-- `not_found`. -/
def notFound : Response where
  status := 404
  headers := []
  body := .empty

/-- How the handler stops without a response: a panic or an error, or a fault in
the rendering, after which the release build goes on with wrapped arithmetic. -/
inductive HandlerFailure where
  | stopped (failure : Failure)
  | fault (fault : Fault)
deriving DecidableEq, Repr

/-- The response with the image. -/
def countResponse (crates : Crates) (visitor : Visitor) (countName : String) (count : UInt64)
    (pngBytes : List UInt8) : Except Panic Response :=
  let texts := ["no-cache", "image/png", countName]
  if texts.all crates.validHeaderValue then
    .ok {
      status := 200
      headers := [("cache-control", "no-cache"), ("content-type", "image/png"),
        ("content-length", pngBytes.length.repr), ("x-count-name", countName),
        ("x-count", u64ToString count), ("x-tag", visitor.tag.toNat.repr)]
      body := .binary pngBytes }
  else .error ⟨"valid response"⟩

/-- The end of `function_handler`, from the count to the response. -/
def respond (crates : Crates) (config : Config) (visitor : Visitor) (countName : String)
    (count : UInt64) : Except HandlerFailure Response := do
  let render ← (renderSeparatedNumber count config.minWidth).mapError .fault
  let pngBytes ← (render.toPngBytes crates.png).mapError fun error => .stopped (.error error)
  (countResponse crates visitor countName count pngBytes).mapError fun panic =>
    .stopped (.panic panic)

/-! ### The handler -/

/-- What an invocation of the Lambda is offered. -/
structure Lambda (m : Type → Type) where
  /-- `SystemTime::now`. -/
  now : m ℤ
  store : Store m

section Handler

variable {m : Type → Type} [Monad m]

/-- A step that may stop the handler. -/
def stopping {α : Type} (x : ExceptT Failure m α) : ExceptT HandlerFailure m α :=
  ExceptT.adapt .stopped x

/-- `function_handler`. -/
def functionHandler (crates : Crates) (config : Config) (lambda : Lambda m)
    (event : HandlerRequest) : ExceptT HandlerFailure m Response := do
  if event.path ≠ "/" then
    return notFound
  match ← stopping (panicking (RequestInfo.tryFrom crates.isBot event.toRequest)) with
  | .error .looksLikeABot => return notFound
  | .error err => throw (.stopped (.error (.message err.fmt)))
  | .ok requestInfo =>
      let visitor := Visitor.ofRequestInfo crates.md5 (← lambda.now) requestInfo
      let countName := event.countName
      if !(config.allowedNames.any fun name => name == countName) then
        return notFound
      let count ← stopping (lambda.store.maybeIncrementVisitors visitor countName (← lambda.now))
      ExceptT.mk (pure (respond crates config visitor countName count))

end Handler

/-- What the handler decides before it reads the clock: the result, or whose visit it is. -/
def admission (crates : Crates) (event : HandlerRequest) :
    Except (Except HandlerFailure Response) RequestInfo :=
  if event.path ≠ "/" then .error (.ok notFound)
  else
    match RequestInfo.tryFrom crates.isBot event.toRequest with
    | .error panic => .error (.error (.stopped (.panic panic)))
    | .ok (.error .looksLikeABot) => .error (.ok notFound)
    | .ok (.error err) => .error (.error (.stopped (.error (.message err.fmt))))
    | .ok (.ok requestInfo) => .ok requestInfo

end VisitorCounter
