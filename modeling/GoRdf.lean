import GoRdf.Theory.TripleIndex
import GoRdf.Theory.Algebra
import GoRdf.Theory.Aggregates
import GoRdf.Theory.Stores
import GoRdf.Theory.SrlEval
import GoRdf.Theory.Modify
import GoRdf.Theory.Escapes
import GoRdf.Theory.NQuads
import GoRdf.Theory.Rdfs
import GoRdf.Theory.ShaclShapes
import GoRdf.Theory.StableSkolem
import GoRdf.Theory.Owl
import GoRdf.Theory.LiteralValue
import GoRdf.Theory.Order
import GoRdf.Theory.ValueOrder
import GoRdf.Theory.Endpoint
import GoRdf.Theory.UpdateRequest
import GoRdf.Theory.ResultCompare
import GoRdf.Theory.Assignment
import GoRdf.Theory.Iri
import GoRdf.Theory.Namespaces
import GoRdf.Theory.Negotiate
import GoRdf.Theory.ShaclTargets
