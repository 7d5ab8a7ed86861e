import Ayubd.Base.Buffer

/-!
# Ayubd — the HTTP parser

`http_parser` is a library of its own, so the model takes it as a parameter. What the module
uses of it is `http_parser_execute` on a freshly initialised parser, of which only the
`on_url` callback is installed, `http_parser_parse_url` and `http_status_str`. The one
assumption is the documented meaning of the URL fields: they are slices of the URL.

`HttpParser.getOnly` is a small parser of the same shape, enough for `GET` requests, on which
the development runs its examples.
-/

namespace Ayubd

/-- `struct http_parser_url`, as far as it is read: `field_data[UF_PATH]` and
`field_data[UF_QUERY]`. A field that is not set has length 0. -/
structure UrlFields where
  pathOff : Nat
  pathLen : Nat
  queryOff : Nat
  queryLen : Nat
deriving Repr, DecidableEq

/-- The fields are slices of a URL of `n` bytes. -/
structure UrlFields.InBounds (f : UrlFields) (n : Nat) : Prop where
  path : f.pathOff + f.pathLen ≤ n
  query : f.queryOff + f.queryLen ≤ n

/-- The part of `http_parser.h` that the module calls. -/
structure HttpParser where
  /-- `http_parser_init` and `http_parser_execute`: the `on_url` calls, in order, with the
  bytes of each. -/
  execute : Bytes → List Bytes
  /-- `http_parser_url_init` and `http_parser_parse_url`; `none` is a non-zero return. -/
  parseUrl : Bytes → Option UrlFields
  /-- `http_status_str`. -/
  statusStr : Int → Bytes
  parseUrl_inBounds : ∀ {url f}, parseUrl url = some f → f.InBounds url.length

/-! ## A parser for `GET` requests -/

namespace GetOnly

/-- What follows the empty line that ends a header. -/
def afterHeader : Bytes → Bytes
  | 13 :: 10 :: 13 :: 10 :: rest => rest
  | _ :: rest => afterHeader rest
  | [] => []

/-- The URLs of the requests in a buffer; the last one may be cut short by its end. -/
def urls : Nat → Bytes → List Bytes
  | 0, _ => []
  | fuel + 1, 71 :: 69 :: 84 :: 32 :: rest =>
    let url := rest.takeWhile (· ≠ 32)
    if url = [] then [] else url :: urls fuel (afterHeader (rest.drop url.length))
  | _ + 1, _ => []

/-- A URL that is an absolute path, split at the first `?`. -/
def fields (url : Bytes) : Option UrlFields :=
  if url.head? = some 47 then
    let pathLen := (url.takeWhile (· ≠ 63)).length
    some { pathOff := 0, pathLen, queryOff := min (pathLen + 1) url.length,
           queryLen := url.length - (pathLen + 1) }
  else none

theorem fields_inBounds {url : Bytes} {f : UrlFields} (h : fields url = some f) :
    f.InBounds url.length := by
  unfold fields at h
  split at h
  · cases h
    have hle := (List.takeWhile_prefix (l := url) fun b => decide (b ≠ 63)).length_le
    constructor
    · simp only [Nat.zero_add]
      exact hle
    · simp only
      omega
  · cases h

end GetOnly

/-- A parser that knows `GET` requests for absolute paths. -/
def HttpParser.getOnly : HttpParser where
  execute b := GetOnly.urls b.length b
  parseUrl := GetOnly.fields
  statusStr code :=
    if code = 200 then ascii "OK" else if code = 403 then ascii "Forbidden"
    else if code = 503 then ascii "Service Unavailable" else ascii "<unknown>"
  parseUrl_inBounds := GetOnly.fields_inBounds

example : HttpParser.getOnly.execute
    (ascii "GET /app/get?a HTTP/1.1\r\n\r\nGET /x HTTP/1.1\r\nHost: a\r\n\r\nGET /ap") =
    [ascii "/app/get?a", ascii "/x", ascii "/ap"] := by decide

end Ayubd
